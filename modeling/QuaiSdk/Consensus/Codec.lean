import QuaiSdk.Consensus.Denomination
import QuaiSdk.Consensus.ProtoRoundTrip
import QuaiSdk.Lib.BigEndian

/-!
# Bounded canonical encoding

`lib.rs` of `quai-consensus`: minimal big-endian integers, the message-counting walk that runs before
the protobuf decoder, and the bounded `encode` and `decode`.
-/

namespace QuaiSdk

open Result Wire BigEndian

inductive TransactionError where
  | tooLarge
  | invalidEncoding
  | invalidField (name : String)
  | wrongType
  | invalidScope
  | invalidSignature
  | multiInputSigningUnavailable
  deriving DecidableEq

/-- `U256`. -/
structure U256 where
  toNat : ℕ
  isLt : toNat < 2 ^ 256
  deriving DecidableEq

namespace U256

def ofNat (n : ℕ) : U256 := ⟨n % 2 ^ 256, Nat.mod_lt _ (by decide)⟩

/-- `to_be_bytes::<32>`. -/
def toBeBytes (n : U256) : Bytes := toBytes 32 n.toNat

/-- `from_be_slice` of at most 32 bytes. -/
def fromBe (bytes : Bytes) (h : bytes.length ≤ 32) : U256 where
  toNat := value bytes
  isLt := lt_of_lt_of_le (value_lt bytes)
    (le_trans (Nat.pow_le_pow_right (by decide) h) (by decide))

end U256

def integerBytes (n : U256) : Bytes := strip n.toBeBytes

def integer (bytes : Option Bytes) (name : String) : Except TransactionError U256 :=
  match bytes with
  | none => .error (.invalidField name)
  | some b =>
    if h : 32 < b.length ∨ b.head? = some 0 then .error (.invalidField name)
    else .ok (U256.fromBe b (by rw [not_or] at h; omega))

theorem value_toBeBytes (n : U256) : value n.toBeBytes = n.toNat := by
  rw [U256.toBeBytes, value_toBytes]
  exact Nat.mod_eq_of_lt n.isLt

@[simp] theorem integer_integerBytes (n : U256) (name : String) :
    integer (some (integerBytes n)) name = .ok n := by
  have hguard : ¬(32 < (integerBytes n).length ∨ (integerBytes n).head? = some 0) := by
    rw [not_or]
    exact ⟨not_lt.mpr (le_trans (length_strip_le _) (length_toBytes 32 n.toNat).le),
      head?_strip_ne_zero _⟩
  have hvalue : value (integerBytes n) = n.toNat := by
    rw [integerBytes, value_strip, value_toBeBytes]
  rw [integer, dif_neg hguard]
  cases n
  simp only [U256.fromBe] at hvalue ⊢
  exact congrArg Except.ok (by congr)

inductive WireKind where
  | transaction | accessList | accessTuple | hash | inputs | input | outPoint | outputs | output
  deriving DecidableEq

def WireKind.child : WireKind → ℕ → Option WireKind
  | .transaction, 9 => some .accessList
  | .transaction, 13 => some .hash
  | .transaction, 19 => some .hash
  | .transaction, 20 => some .hash
  | .transaction, 15 => some .inputs
  | .transaction, 16 => some .outputs
  | .accessList, 1 => some .accessTuple
  | .accessTuple, 2 => some .hash
  | .inputs, 1 => some .input
  | .input, 1 => some .outPoint
  | .outPoint, 1 => some .hash
  | .outputs, 1 => some .output
  | _, _ => none

/-- `budget.checked_sub(1)`. -/
def takeMessage (budget : ℕ) : Except TransactionError ℕ :=
  if budget = 0 then .error .tooLarge else .ok (budget - 1)

/-- `while !bytes.is_empty()` of `preflight`.  A round reads at least the key's byte, so as many
rounds as there are bytes are enough. -/
def walk : ℕ → Bytes → WireKind → ℕ → Except TransactionError ℕ
  | _, [], _, budget => .ok budget
  | 0, _ :: _, _, _ => .error .invalidEncoding
  | fuel + 1, b :: bytes, kind, budget => do
    let (key, rest) ← okOr (readVarint (b :: bytes)) TransactionError.invalidEncoding
    if key / 8 = 0 then .error .invalidEncoding
    else
      let (value, rest) ← okOr (readValue (key % 8) rest) TransactionError.invalidEncoding
      match value, kind.child (key / 8) with
      | .bytes part, some child => do
        let budget ← takeMessage budget
        let budget ← walk fuel part child budget
        walk fuel rest kind budget
      | _, _ => walk fuel rest kind budget

def preflight (bytes : Bytes) (kind : WireKind) (budget : ℕ) : Except TransactionError ℕ := do
  let budget ← takeMessage budget
  walk bytes.length bytes kind budget

def encode (p : Proto.Transaction) : Except TransactionError Bytes :=
  if maxTransactionBytes < (Proto.transaction.encode p).length then .error .tooLarge
  else .ok (Proto.transaction.encode p)

def decode (bytes : Bytes) : Except TransactionError Proto.Transaction :=
  if maxTransactionBytes < bytes.length then .error .tooLarge
  else do
    let _ ← preflight bytes .transaction maxTransactionMessages
    let p ← okOr (Proto.transaction.decode bytes) TransactionError.invalidEncoding
    if Proto.transaction.encode p ≠ bytes then .error .invalidEncoding else .ok p

end QuaiSdk
