import Mathlib.Algebra.Ring.Nat
import Mathlib.Data.List.Basic

/-!
# Primitive values

The byte-level values of `quai-primitives`: hashes, zones, ledgers and addresses.  An address carries
its zone in byte 0 and its ledger in bit 7 of byte 1; the ledger-specific address types keep the
result of that check.
-/

namespace QuaiSdk

abbrev Bytes := List UInt8

/-- `Hash32`: exactly 32 bytes. -/
@[ext]
structure Hash32 where
  bytes : Bytes
  size : bytes.length = 32
  deriving DecidableEq

instance Hash32.neZero : NeZero 32 := ⟨by decide⟩

instance Bytes.lawfulBEq : LawfulBEq Bytes := inferInstance

/-- A condition on the bytes of a string is decided on those bytes, not on all 256. -/
instance Bytes.decidableBAll (p : UInt8 → Prop) [DecidablePred p] (bytes : Bytes) :
    Decidable (∀ b ∈ bytes, p b) :=
  List.decidableBAll p bytes

namespace Hash32

def zero : Hash32 := ⟨List.replicate 32 0, rfl⟩

/-- The byte at a fixed position, as in `hash.bytes()[i]`. -/
def byte (h : Hash32) (i : Fin 32) : UInt8 := h.bytes.get ⟨i, by rw [h.size]; exact i.isLt⟩

/-- `hash[i] = b`. -/
def set (h : Hash32) (i : Fin 32) (b : UInt8) : Hash32 :=
  ⟨h.bytes.set i b, by rw [List.length_set, h.size]⟩

@[simp] theorem byte_set_self (h : Hash32) (i : Fin 32) (b : UInt8) : (h.set i b).byte i = b := by
  simp [byte, set]

theorem byte_set_of_ne (h : Hash32) {i j : Fin 32} (hij : i ≠ j) (b : UInt8) :
    (h.set i b).byte j = h.byte j := by
  have hval : i.val ≠ j.val := fun heq => hij (Fin.ext heq)
  simp [byte, set, List.getElem_set_ne hval]

/-- `<[u8; 32]>::try_from`. -/
def ofBytes (b : Bytes) : Option Hash32 :=
  if h : b.length = 32 then some ⟨b, h⟩ else none

@[simp] theorem ofBytes_bytes (h : Hash32) : ofBytes h.bytes = some h := by
  simp [ofBytes, h.size]

theorem bytes_of_ofBytes {b : Bytes} {h : Hash32} (hb : ofBytes b = some h) : h.bytes = b := by
  unfold ofBytes at hb
  split at hb
  · rw [← Option.some.inj hb]
  · cases hb

end Hash32

inductive ShardError where
  | unknownZone (byte : UInt8)
  deriving DecidableEq

inductive Zone where
  | cyprus1 | cyprus2 | cyprus3 | paxos1 | paxos2 | paxos3 | hydra1 | hydra2 | hydra3
  deriving DecidableEq

namespace Zone

def byte : Zone → UInt8
  | cyprus1 => 0x00
  | cyprus2 => 0x01
  | cyprus3 => 0x02
  | paxos1 => 0x10
  | paxos2 => 0x11
  | paxos3 => 0x12
  | hydra1 => 0x20
  | hydra2 => 0x21
  | hydra3 => 0x22

def fromByte (b : UInt8) : Except ShardError Zone :=
  if b = 0x00 then .ok cyprus1
  else if b = 0x01 then .ok cyprus2
  else if b = 0x02 then .ok cyprus3
  else if b = 0x10 then .ok paxos1
  else if b = 0x11 then .ok paxos2
  else if b = 0x12 then .ok paxos3
  else if b = 0x20 then .ok hydra1
  else if b = 0x21 then .ok hydra2
  else if b = 0x22 then .ok hydra3
  else .error (.unknownZone b)

@[simp] theorem fromByte_byte (z : Zone) : fromByte z.byte = .ok z := by
  cases z <;> rfl

theorem byte_injective {z z' : Zone} (h : z.byte = z'.byte) : z = z' := by
  have := congrArg fromByte h
  simpa using this

end Zone

inductive Ledger where
  | quai | qi
  deriving DecidableEq

/-- `Address`: an arbitrary 20-byte address. -/
@[ext]
structure Address where
  bytes : Bytes
  size : bytes.length = 20
  deriving DecidableEq

inductive AddressError where
  | invalidLength
  | invalidZone (error : ShardError)
  | wrongLedger (expected actual : Ledger)
  deriving DecidableEq

namespace Address

def byte (a : Address) (i : Fin 20) : UInt8 := a.bytes.get ⟨i, by rw [a.size]; exact i.isLt⟩

/-- Bit 7 of byte 1 selects the ledger. -/
def ledger (a : Address) : Ledger := if a.byte 1 &&& 0x80 = 0 then .quai else .qi

def zone (a : Address) : Except ShardError Zone := Zone.fromByte (a.byte 0)

/-- `Address::try_from(&[u8])`. -/
def tryFrom (b : Bytes) : Except AddressError Address :=
  if h : b.length = 20 then .ok ⟨b, h⟩ else .error .invalidLength

@[simp] theorem tryFrom_bytes (a : Address) : tryFrom a.bytes = .ok a := by
  simp [tryFrom, a.size]

theorem bytes_of_tryFrom {b : Bytes} {a : Address} (h : tryFrom b = .ok a) : a.bytes = b := by
  unfold tryFrom at h
  split at h
  · cases h; rfl
  · cases h

end Address

/-- An address with a published zone and the given ledger bit (`QuaiAddress`, `QiAddress`). -/
structure LedgerAddress (ledger : Ledger) where
  address : Address
  zone : Zone
  zone_eq : address.zone = .ok zone
  ledger_eq : address.ledger = ledger
  deriving DecidableEq

abbrev QuaiAddress := LedgerAddress .quai

abbrev QiAddress := LedgerAddress .qi

namespace LedgerAddress

variable {ledger : Ledger}

def bytes (a : LedgerAddress ledger) : Bytes := a.address.bytes

theorem ext_address {a b : LedgerAddress ledger} (h : a.address = b.address) : a = b := by
  obtain ⟨aa, az, haz, hal⟩ := a
  obtain ⟨ba, bz, hbz, hbl⟩ := b
  cases h
  rw [haz] at hbz
  cases hbz
  rfl

/-- `TryFrom<Address>`: the zone is checked before the ledger. -/
def tryFrom (ledger : Ledger) (a : Address) : Except AddressError (LedgerAddress ledger) :=
  match hz : a.zone with
  | .error e => .error (.invalidZone e)
  | .ok zone =>
    if hl : a.ledger = ledger then .ok ⟨a, zone, hz, hl⟩
    else .error (.wrongLedger ledger a.ledger)

theorem tryFrom_address (a : LedgerAddress ledger) : tryFrom ledger a.address = .ok a := by
  unfold tryFrom
  split
  · rename_i e he
    rw [a.zone_eq] at he
    cases he
  · rw [dif_pos a.ledger_eq]
    exact congrArg Except.ok (ext_address rfl)

theorem address_of_tryFrom {a : Address} {l : LedgerAddress ledger}
    (h : tryFrom ledger a = .ok l) : l.address = a := by
  unfold tryFrom at h
  split at h
  · cases h
  · split at h
    · cases h; rfl
    · cases h

end LedgerAddress

end QuaiSdk
