import QuaiSdk.Books.Codec

/-!
# Public address metadata

`metadata.rs`: the origin of a key and the record of an address as bytes.  Decoding accepts exactly
the encodings of well-formed records.
-/

namespace QuaiSdk.Storage

open Result Wallet BigEndian List

variable {C : Crypto}

namespace KeyOrigin

def encode : KeyOrigin → Bytes
  | importedPublic => [0]
  | bip44 coin account change index =>
    [1, if coin = .qi then 1 else 0, if change then 1 else 0] ++ toBytes 4 account ++
      toBytes 4 index

def decode (bytes : Bytes) : Except StorageError KeyOrigin :=
  if bytes = [0] then .ok importedPublic
  else
    match bytes with
    | tag :: coin :: change :: rest =>
      if rest.length ≠ 8 ∨ tag ≠ 1 ∨ 1 < coin ∨ 1 < change then .error .invalid
      else
        let account := value (rest.take 4)
        let index := value (rest.drop 4)
        if hardened ≤ account ∨ hardened ≤ index then .error .invalid
        else .ok (bip44 (if coin = 0 then .quai else .qi) account (decide (change = 1)) index)
    | _ => .error .invalid

def Unhardened : KeyOrigin → Prop
  | importedPublic => True
  | bip44 _ account _ index => account < hardened ∧ index < hardened

variable {o : KeyOrigin}

theorem decode_encode (h : o.Unhardened) : decode o.encode = .ok o := by
  cases o with
  | importedPublic => rfl
  | bip44 coin account change index =>
    obtain ⟨haccount, hindex⟩ := h
    have hsmall : ∀ n, n < hardened → n % 256 ^ 4 = n := fun n hn =>
      Nat.mod_eq_of_lt (lt_of_lt_of_le hn (by decide))
    have htake : (toBytes 4 account ++ toBytes 4 index).take 4 =
        toBytes 4 account := take_left' (length_toBytes 4 account)
    have hdrop : (toBytes 4 account ++ toBytes 4 index).drop 4 =
        toBytes 4 index := drop_left' (length_toBytes 4 account)
    simp only [encode, cons_append, nil_append, decode, length_append, length_toBytes, htake, hdrop,
      value_toBytes, hsmall _ haccount, hsmall _ hindex]
    rw [if_neg (by simp), if_neg (by cases coin <;> cases change <;> simp),
      if_neg (by rw [not_or, not_le, not_le]; exact ⟨haccount, hindex⟩)]
    cases coin <;> cases change <;> rfl

theorem encode_of_decode {b : Bytes} (h : decode b = .ok o) : o.encode = b ∧ o.Unhardened := by
  unfold decode at h
  split at h
  · rename_i hb
    cases h
    exact ⟨hb.symm, trivial⟩
  · split at h
    · rename_i tag coin change rest _
      rw [ite_error_eq_ok] at h
      rw [ite_error_eq_ok, Except.ok.injEq, not_or, not_or, not_or, not_or, not_not, not_not] at h
      obtain ⟨⟨hlength, rfl, hcoin, hchange⟩, ⟨haccount, hindex⟩, rfl⟩ := h
      refine ⟨?_, not_le.mp haccount, not_le.mp hindex⟩
      have htake : toBytes 4 (value (rest.take 4)) = rest.take 4 := by
        have hfour : (rest.take 4).length = 4 := by rw [length_take, hlength]; rfl
        conv_rhs => rw [← toBytes_value (rest.take 4), hfour]
      have hdrop : toBytes 4 (value (rest.drop 4)) = rest.drop 4 := by
        have hfour : (rest.drop 4).length = 4 := by rw [length_drop, hlength]
        conv_rhs => rw [← toBytes_value (rest.drop 4), hfour]
      have hbit : ∀ x : UInt8, ¬1 < x → x = 0 ∨ x = 1 := by
        intro x hx
        rw [UInt8.not_lt, UInt8.le_iff_toNat_le] at hx
        rcases Nat.le_one_iff_eq_zero_or_eq_one.mp hx with hx | hx
        · exact .inl (UInt8.toNat_inj.mp hx)
        · exact .inr (UInt8.toNat_inj.mp hx)
      simp only [encode, htake, hdrop, append_assoc, take_append_drop]
      rcases hbit coin hcoin with rfl | rfl <;> rcases hbit change hchange with rfl | rfl <;> rfl
    · cases h

def Misplaced (address : Address) : KeyOrigin → Prop
  | importedPublic => False
  | bip44 coin account _ index =>
    hardened ≤ account ∨ hardened ≤ index ∨ coin.ledger ≠ address.ledger

instance (address : Address) (o : KeyOrigin) : Decidable (o.Misplaced address) :=
  match o with
  | importedPublic => inferInstanceAs (Decidable False)
  | bip44 _ _ _ _ => inferInstanceAs (Decidable (_ ∨ _))

theorem unhardened_of_placed {address : Address} (h : ¬o.Misplaced address) : o.Unhardened := by
  cases o with
  | importedPublic => trivial
  | bip44 =>
    rw [Misplaced, not_or, not_or, not_le, not_le] at h
    exact ⟨h.1, h.2.1⟩

theorem length_encode (o : KeyOrigin) : o.encode.length = 1 ∨ o.encode.length = 11 := by
  cases o with
  | importedPublic => exact .inl rfl
  | bip44 => exact .inr (by simp [encode])

end KeyOrigin

namespace PublicAddress

/-- `QADDR001`. -/
def metadataMagic : Bytes := [0x51, 0x41, 0x44, 0x44, 0x52, 0x30, 0x30, 0x31]

def fromBackupParts (C : Crypto) (address : Address) (publicKey : Bytes) (origin : KeyOrigin) :
    Except StorageError PublicAddress := do
  let key ← okOr (C.fromSec1 publicKey) StorageError.invalid
  if C.address key ≠ address ∨ address.zone.isOk = false then .error .invalid
  else if origin.Misplaced address then .error .invalid
  else .ok ⟨address, publicKey, origin⟩

def exportMetadata (a : PublicAddress) : Bytes := metadataMagic ++ a.publicKey ++ a.origin.encode

def fromMetadata (C : Crypto) (bytes : Bytes) : Except StorageError PublicAddress :=
  if (bytes.length ≠ 42 ∧ bytes.length ≠ 52) ∨ bytes.take 8 ≠ metadataMagic then .error .invalid
  else do
    let publicKey := (bytes.drop 8).take 33
    let key ← okOr (C.fromSec1 publicKey) StorageError.invalid
    let origin ← KeyOrigin.decode (bytes.drop 41)
    fromBackupParts C (C.address key) publicKey origin

/-- The records that the constructors of the type build. -/
structure WellFormed (C : Crypto) (a : PublicAddress) : Prop where
  size : a.publicKey.length = 33
  parts : fromBackupParts C a.address a.publicKey a.origin = .ok a

/-- A value of the source's type, whose fields are private. -/
structure Checked (C : Crypto) extends PublicAddress where
  wellFormed : toPublicAddress.WellFormed C

variable {a : PublicAddress}

theorem fromBackupParts_eq_ok {address : Address} {publicKey : Bytes} {origin : KeyOrigin} :
    fromBackupParts C address publicKey origin = .ok a ↔
      (∃ key, C.fromSec1 publicKey = some key ∧ C.address key = address) ∧
        address.zone.isOk = true ∧ ¬origin.Misplaced address ∧ a = ⟨address, publicKey, origin⟩ := by
  simp only [fromBackupParts, eq_ok, not_or, ne_eq, not_not, Bool.not_eq_false]
  constructor
  · rintro ⟨key, hkey, ⟨haddress, hzone⟩, hplaced, rfl⟩
    exact ⟨⟨key, hkey, haddress⟩, hzone, hplaced, rfl⟩
  · rintro ⟨⟨key, hkey, haddress⟩, hzone, hplaced, rfl⟩
    exact ⟨key, hkey, ⟨haddress, hzone⟩, hplaced, rfl⟩

theorem fromMetadata_eq_ok {b : Bytes} :
    fromMetadata C b = .ok a ↔ a.WellFormed C ∧ b = a.exportMetadata := by
  simp only [fromMetadata, eq_ok, fromBackupParts_eq_ok]
  constructor
  · rintro ⟨hguard, key, hkey, origin, horigin, -, hzone, hplaced, rfl⟩
    rw [not_or, not_and_or, not_not, not_not, not_not] at hguard
    obtain ⟨hlength, hmagic⟩ := hguard
    have hsize : ((b.drop 8).take 33).length = 33 := by
      rw [length_take, length_drop]
      omega
    refine ⟨⟨hsize, fromBackupParts_eq_ok.mpr ⟨⟨key, hkey, rfl⟩, hzone, hplaced, rfl⟩⟩, ?_⟩
    obtain ⟨hencode, -⟩ := KeyOrigin.encode_of_decode horigin
    rw [exportMetadata, hencode, ← hmagic, append_assoc]
    have hrest : (b.drop 8).take 33 ++ b.drop 41 = b.drop 8 := by
      conv_rhs => rw [← take_append_drop 33 (b.drop 8), drop_drop]
    rw [hrest, take_append_drop]
  · rintro ⟨⟨hsize, hparts⟩, rfl⟩
    obtain ⟨⟨key, hkey, haddress⟩, hzone, hplaced, -⟩ := fromBackupParts_eq_ok.mp hparts
    have htake : a.exportMetadata.take 8 = metadataMagic := by
      rw [exportMetadata, append_assoc]
      exact take_left' rfl
    have hdrop : a.exportMetadata.drop 8 = a.publicKey ++ a.origin.encode := by
      rw [exportMetadata, append_assoc]
      exact drop_left' rfl
    have hkeyBytes : (a.exportMetadata.drop 8).take 33 = a.publicKey := by
      exact take_left' hsize
    have horigin : a.exportMetadata.drop 41 = a.origin.encode := by
      have hsplit : a.exportMetadata.drop 41 = (a.exportMetadata.drop 8).drop 33 := by
        rw [drop_drop]
      rw [hsplit, hdrop]
      exact drop_left' hsize
    refine ⟨?_, key, ?_, a.origin, ?_, ?_⟩
    · rw [not_or, not_and_or, not_not, not_not, not_not, htake]
      refine ⟨?_, rfl⟩
      rw [exportMetadata, length_append, length_append, hsize]
      change 8 + 33 + _ = _ ∨ 8 + 33 + _ = _
      rcases a.origin.length_encode with h | h <;> omega
    · rw [hkeyBytes]
      exact hkey
    · rw [horigin]
      exact KeyOrigin.decode_encode (KeyOrigin.unhardened_of_placed hplaced)
    · rw [hkeyBytes, haddress]
      exact ⟨⟨key, hkey, haddress⟩, hzone, hplaced, rfl⟩

theorem length_exportMetadata (h : a.WellFormed C) : a.exportMetadata.length ≤ 52 := by
  rw [exportMetadata, length_append, length_append, h.size]
  change 8 + 33 + _ ≤ _
  rcases a.origin.length_encode with h | h <;> omega

end PublicAddress

end QuaiSdk.Storage
