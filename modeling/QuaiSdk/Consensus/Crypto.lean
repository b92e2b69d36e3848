import QuaiSdk.Primitives
import QuaiSdk.Lib.BigEndian

/-!
# Cryptographic backend

The curve and hash operations that the SDK takes from its dependencies, as one parameter of the
development, together with the documented behaviour the codecs rely on: keys and signatures
serialize to fixed lengths and parse back to themselves.
-/

namespace QuaiSdk

structure Crypto where
  PublicKey : Type
  SchnorrSignature : Type
  RecoverableSignature : Type
  keccak256 : Bytes → Hash32
  -- SEC1 public keys and the address derived from a key
  fromSec1 : Bytes → Option PublicKey
  toCompressed : PublicKey → Bytes
  address : PublicKey → Address
  fromSec1_toCompressed : ∀ k, fromSec1 (toCompressed k) = some k
  length_toCompressed : ∀ k, (toCompressed k).length = 33
  -- BIP340 signatures under one key, or under the ordered aggregate of several
  schnorrFromBytes : Bytes → Option SchnorrSignature
  schnorrToBytes : SchnorrSignature → Bytes
  schnorrFromBytes_toBytes : ∀ σ, schnorrFromBytes (schnorrToBytes σ) = some σ
  length_schnorrToBytes : ∀ σ, (schnorrToBytes σ).length = 64
  verifySchnorr : PublicKey → Hash32 → SchnorrSignature → Bool
  verifyAggregate : List PublicKey → Hash32 → SchnorrSignature → Bool
  -- low-S ECDSA signatures with a recovery identifier
  fromCompact : Bytes → UInt8 → Option RecoverableSignature
  sigR : RecoverableSignature → Hash32
  sigS : RecoverableSignature → Hash32
  recoveryId : RecoverableSignature → UInt8
  fromCompact_parts : ∀ σ, fromCompact ((sigR σ).bytes ++ (sigS σ).bytes) (recoveryId σ) = some σ
  recoverPrehash : RecoverableSignature → Hash32 → Option PublicKey

theorem Crypto.toCompressed_injective (C : Crypto) : Function.Injective C.toCompressed := by
  intro a b h
  have hread := C.fromSec1_toCompressed a
  rw [h, C.fromSec1_toCompressed, Option.some.injEq] at hread
  exact hread.symm

def Hash32.ofNat (n : ℕ) : Hash32 := ⟨BigEndian.toBytes 32 n, BigEndian.length_toBytes 32 n⟩

def Address.ofNat (n : ℕ) : Address := ⟨BigEndian.toBytes 20 n, BigEndian.length_toBytes 20 n⟩

/-- Known answers of the backend: key addresses, digests, Schnorr signatures that verify under an
ordered list of keys, and the key an ECDSA signature recovers. -/
structure KnownAnswers where
  addresses : List (Bytes × Address)
  digests : List (Bytes × Hash32)
  schnorr : List (List Bytes × Hash32 × Bytes)
  recoveries : List ((Hash32 × Hash32 × UInt8 × Hash32) × Bytes)

/-- A backend that answers from a table, for concrete runs. -/
def KnownAnswers.crypto (table : KnownAnswers) : Crypto where
  PublicKey := { b : Bytes // b.length = 33 }
  SchnorrSignature := { b : Bytes // b.length = 64 }
  RecoverableSignature := Hash32 × Hash32 × UInt8
  keccak256 b := (table.digests.lookup b).getD Hash32.zero
  fromSec1 b := if h : b.length = 33 then some ⟨b, h⟩ else none
  toCompressed k := k.1
  address k := (table.addresses.lookup k.1).getD (Address.ofNat 0)
  fromSec1_toCompressed k := by simp [k.2]
  length_toCompressed k := k.2
  schnorrFromBytes b := if h : b.length = 64 then some ⟨b, h⟩ else none
  schnorrToBytes σ := σ.1
  schnorrFromBytes_toBytes σ := by simp [σ.2]
  length_schnorrToBytes σ := σ.2
  verifySchnorr k digest σ := decide (([k.1], digest, σ.1) ∈ table.schnorr)
  verifyAggregate ks digest σ := decide ((ks.map Subtype.val, digest, σ.1) ∈ table.schnorr)
  fromCompact b id := do
    let r ← Hash32.ofBytes (b.take 32)
    let s ← Hash32.ofBytes (b.drop 32)
    some (r, s, id)
  sigR σ := σ.1
  sigS σ := σ.2.1
  recoveryId σ := σ.2.2
  fromCompact_parts σ := by
    have hlen := σ.1.size
    rw [List.take_append_of_le_length hlen.ge, List.drop_append_of_le_length hlen.ge,
      List.take_of_length_le hlen.le, List.drop_of_length_le hlen.le, List.nil_append,
      Hash32.ofBytes_bytes, Hash32.ofBytes_bytes]
    rfl
  recoverPrehash σ digest := do
    let b ← table.recoveries.lookup (σ.1, σ.2.1, σ.2.2, digest)
    if h : b.length = 33 then some ⟨b, h⟩ else none

end QuaiSdk
