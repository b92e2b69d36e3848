import QuaiSdk.Consensus.QiCodec
import QuaiSdk.Consensus.QuaiCodec

/-!
# Classification of Qi payloads

Custody, replacement families and settlement try the decoders in different orders.  They agree
because the data length alone separates the three signed forms, and the type field separates them
from account transactions.
-/

namespace QuaiSdk

open Result QiTransaction

variable {C : Crypto}

def QiMode.dataLength : QiMode → ℕ
  | .ordinary => 0
  | .wrapping => 20
  | .conversion => 22

theorem length_data_of_verified {mode : QiMode} {t : QiTransaction C} {σ : C.SchnorrSignature}
    (h : t.verifySignatureFor mode σ = .ok ()) : t.data.length = mode.dataLength := by
  simp only [verifySignatureFor, bind_eq_ok] at h
  obtain ⟨origin, hvalid, ⟨⟩, hrule, -⟩ := h
  have hdata := (validateFor_spec hvalid).data
  cases mode with
  | ordinary =>
    -- validation leaves the data open; only the signing rule empties it
    simp only [signingRule, if_true, validateOrdinarySigning, ite_error_eq_ok, ne_eq, not_not] at hrule
    rw [hrule.1]
    rfl
  | conversion =>
    simp only [checkData, checkConversion, ite_error_eq_ok, not_or, ne_eq, not_not] at hdata
    exact hdata.1.2
  | wrapping =>
    simp only [checkData, checkWrapping, scopedAddress, eq_ok] at hdata
    obtain ⟨_, ⟨a, ha, -⟩, -⟩ := hdata
    rw [← Address.bytes_of_tryFrom ha]
    exact a.size

namespace SignedQiOperation

def AcceptedBy (b : Bytes) : SignedQiOperation C → Prop
  | transfer s => SignedQiTransaction.decode C b = .ok s
  | conversion s => SignedQiConversionTransaction.decode C b = .ok s
  | wrapping s => SignedQiWrappingTransaction.decode C b = .ok s

theorem verified (op : SignedQiOperation C) :
    op.transaction.verifySignatureFor op.mode op.signature = .ok () := by
  cases op with
  | transfer s | conversion s | wrapping s => exact s.verified

variable {op : SignedQiOperation C} {b : Bytes} {zone : Zone}

theorem signedBytes_of_acceptedBy (h : op.AcceptedBy b) :
    op.transaction.signedBytesFor op.mode op.signature = .ok b := by
  cases op with
  | transfer s => exact (transfer_signed_inverse C).encode_decode b s h
  | conversion s => exact (conversion_signed_inverse C).encode_decode b s h
  | wrapping s => exact (wrapping_signed_inverse C).encode_decode b s h

/-- What a generic parse of an accepted payload shows of its form. -/
theorem payload_of_acceptedBy (h : op.AcceptedBy b) :
    ∃ p, QuaiSdk.decode b = .ok p ∧ p.type = some 2 ∧
      (p.data.map List.length).getD 0 = op.mode.dataLength := by
  obtain ⟨p, hp, -, -, -, rfl, -⟩ := signedBytesFor_spec (signedBytes_of_acceptedBy h)
  exact ⟨_, hp, rfl, length_data_of_verified op.verified⟩

theorem decode_eq_ok_iff : decode C b = .ok op ↔ op.AcceptedBy b := by
  constructor
  · intro h
    simp only [decode, bind_eq_ok] at h
    obtain ⟨p, -, h⟩ := h
    split_ifs at h with h0 h20 h22
    all_goals
      obtain ⟨s, hs, rfl⟩ := map_eq_ok.mp h
      exact hs
  · intro h
    obtain ⟨p, hp, -, hlen⟩ := payload_of_acceptedBy h
    simp only [decode, hp, ok_bind, hlen]
    -- the length is now the constant of the form, so dispatch computes
    cases op with
    | transfer s =>
      exact map_eq_ok.mpr ⟨s, h, rfl⟩
    | wrapping s =>
      exact map_eq_ok.mpr ⟨s, h, rfl⟩
    | conversion s =>
      exact map_eq_ok.mpr ⟨s, h, rfl⟩

theorem decode_signedBytes (h : op.signedBytes = .ok b) : decode C b = .ok op := by
  rw [decode_eq_ok_iff]
  cases op with
  | transfer s => exact (transfer_signed_inverse C).decode_encode s b h
  | conversion s => exact (conversion_signed_inverse C).decode_encode s b h
  | wrapping s => exact (wrapping_signed_inverse C).decode_encode s b h

/-- No payload of a Qi operation parses as an account transaction. -/
theorem quai_decode_ne_ok (h : op.AcceptedBy b) (s : SignedQuaiTransaction C) :
    SignedQuaiTransaction.decode C b ≠ .ok s := by
  intro hs
  obtain ⟨p, hp, htype, -⟩ := payload_of_acceptedBy h
  simp only [SignedQuaiTransaction.decode, canonical, SignedQuaiTransaction.read,
    QuaiTransaction.fromProto, hp, ok_bind, htype] at hs
  cases hs

theorem locatedHash_byte_zero (zone : Zone) (b : Bytes) :
    (locatedHash C zone b).byte 0 = zone.byte := by
  rw [locatedHash, Hash32.byte_set_of_ne _ (by decide), Hash32.byte_set_of_ne _ (by decide),
    Hash32.byte_set_of_ne _ (by decide), Hash32.byte_set_self]

theorem locatedHash_byte_two (zone : Zone) (b : Bytes) :
    (locatedHash C zone b).byte 2 = zone.byte := by
  rw [locatedHash, Hash32.byte_set_of_ne _ (by decide), Hash32.byte_set_self]

theorem exists_validateFor (op : SignedQiOperation C) :
    ∃ zone, op.transaction.validateFor op.mode = .ok zone := by
  have h := op.verified
  simp only [verifySignatureFor, bind_eq_ok] at h
  obtain ⟨zone, hzone, -⟩ := h
  exact ⟨zone, hzone⟩

theorem originZone_eq (h : op.transaction.validateFor op.mode = .ok zone) :
    op.originZone = .ok zone := by
  cases op with
  | transfer => exact h
  | conversion s =>
    obtain ⟨intent, hintent, hzone⟩ := conversionIntent_of_validateFor h
    have hsame : s.transaction.intent = intent :=
      Except.ok.inj (s.transaction.classified.symm.trans hintent)
    exact congrArg Except.ok ((congrArg (·.destination.zone) hsame).trans hzone)
  | wrapping s =>
    obtain ⟨intent, hintent, hzone⟩ := wrappingIntent_of_validateFor h
    have hsame : s.transaction.intent = intent :=
      Except.ok.inj (s.transaction.classified.symm.trans hintent)
    exact congrArg Except.ok ((congrArg (·.destination.zone) hsame).trans hzone)

theorem hash_eq (hzone : op.originZone = .ok zone) (hb : op.signedBytes = .ok b) :
    op.hash = .ok (locatedHash C zone b) := by
  cases op with
  | transfer s =>
    have hb' : s.signedBytes = .ok b := hb
    have hzone' : s.transaction.originZone = .ok zone := hzone
    rw [hash, SignedQiTransaction.hash, hzone', ok_bind, hb', ok_bind]
  | conversion s =>
    have hb' : s.signedBytes = .ok b := hb
    rw [hash, SignedQiConversionTransaction.hash, hb', ok_bind, Except.ok.inj hzone]
  | wrapping s =>
    have hb' : s.signedBytes = .ok b := hb
    rw [hash, SignedQiWrappingTransaction.hash, hb', ok_bind, Except.ok.inj hzone]

/-- The outputs of an accepted payload: nothing returns to an owner, no Qi address repeats, and one
Quai address stands in a conversion or wrapping. -/
structure OutputsSeparate (mode : QiMode) (t : QiTransaction C) : Prop where
  owners : ∀ o ∈ t.outputs, ∀ i ∈ t.inputs, o.address ≠ C.address i.publicKey
  distinct : t.outputs.Pairwise fun a b =>
    a.address.ledger = .qi ∨ b.address.ledger = .qi → a.address ≠ b.address
  ordinary : mode = .ordinary → ∀ o ∈ t.outputs, o.address.ledger = .qi
  special : mode ≠ .ordinary → ∃! d, d.ledger = .quai ∧ ∃ o ∈ t.outputs, o.address = d

theorem outputsSeparate_of_validateFor {mode : QiMode} {t : QiTransaction C}
    (h : t.validateFor mode = .ok zone) : OutputsSeparate mode t := by
  have hv := validateFor_spec h
  obtain ⟨used, found, hused, hchecked, -⟩ := hv.outputs
  refine ⟨?_, hchecked.distinct, ?_, ?_⟩
  · intro o ho i hi heq
    -- owners are Qi addresses, so only the Qi rule of the loop can apply
    have hqi : o.address.ledger = .qi := heq ▸ (hv.inputs i hi).owner.1
    exact (hchecked.qi o ho hqi).1 (heq ▸ hused i hi)
  · intro hmode o ho
    cases hl : o.address.ledger with
    | qi => rfl
    | quai => exact absurd hmode (hchecked.quai o ho hl).1
  · intro hmode
    obtain ⟨d, -, -, ⟨o, ho, hod⟩, hall⟩ := quaiDestination_spec hmode hv
    refine ⟨d.address, ⟨d.ledger_eq, o, ho, hod⟩, ?_⟩
    rintro e ⟨he, x, hx, rfl⟩
    exact hall x hx he

/-- Every byte string belongs to at most one signed form, dispatch finds it, account transactions
are disjoint from all of them, and what is accepted has one origin zone that its hash carries. -/
theorem qi_classification_unambiguous (C : Crypto) (b : Bytes) :
    (∀ op op' : SignedQiOperation C, op.AcceptedBy b → op'.AcceptedBy b → op = op') ∧
    (∀ op : SignedQiOperation C, decode C b = .ok op ↔ op.AcceptedBy b) ∧
    (∀ (op : SignedQiOperation C) (s : SignedQuaiTransaction C), decode C b = .ok op →
      SignedQuaiTransaction.decode C b ≠ .ok s) ∧
    ∀ op : SignedQiOperation C, decode C b = .ok op →
      (op.transaction.inputs.map QiInput.previousOutput).Nodup ∧
      OutputsSeparate op.mode op.transaction ∧
      ∃ zone h, (∀ i ∈ op.transaction.inputs,
          i.previousOutput.transactionHash.byte 2 = zone.byte ∧
            (C.address i.publicKey).zone = .ok zone) ∧
        op.hash = .ok h ∧ h.byte 0 = zone.byte ∧ h.byte 2 = zone.byte := by
  refine ⟨?_, fun op => decode_eq_ok_iff, ?_, ?_⟩
  · intro op op' h h'
    have hdecode := decode_eq_ok_iff.mpr h
    rw [decode_eq_ok_iff.mpr h'] at hdecode
    exact (Except.ok.inj hdecode).symm
  · intro op s h
    exact quai_decode_ne_ok (decode_eq_ok_iff.mp h) s
  · intro op h
    have haccepted := decode_eq_ok_iff.mp h
    obtain ⟨zone, hvalid⟩ := op.exists_validateFor
    have hv := validateFor_spec hvalid
    have hbytes : op.signedBytes = .ok b := by
      have := signedBytes_of_acceptedBy haccepted
      cases op <;> exact this
    refine ⟨hv.outpoints, outputsSeparate_of_validateFor hvalid, zone, _, ?_,
      hash_eq (originZone_eq hvalid) hbytes, locatedHash_byte_zero zone b,
      locatedHash_byte_two zone b⟩
    intro i hi
    exact ⟨(hv.inputs i hi).hashZone, (hv.inputs i hi).owner.2⟩

theorem qi_classification_unambiguous_coin :
    decode coinOwner coinTransferSignedBytes = .ok (transfer coinTransferSigned) ∧
      (∀ s, SignedQuaiTransaction.decode coinOwner coinTransferSignedBytes ≠ .ok s) ∧
      OutputsSeparate .ordinary coinTransfer ∧
      ∃ h, coinTransferSigned.hash = .ok h ∧ h.byte 0 = Zone.cyprus1.byte := by
  have hbytes : coinTransferSigned.signedBytes = .ok coinTransferSignedBytes := by decide +kernel
  have haccepted := (transfer_signed_inverse coinOwner).decode_encode _ _ hbytes
  obtain ⟨-, hdispatch, hdisjoint, hshape⟩ :=
    qi_classification_unambiguous coinOwner coinTransferSignedBytes
  have hdecode := (hdispatch (transfer coinTransferSigned)).mpr haccepted
  obtain ⟨-, houtputs, zone, h, hinputs, hhash, hzero, -⟩ := hshape _ hdecode
  have hzone := (hinputs coinInput List.mem_cons_self).1
  refine ⟨hdecode, fun s => hdisjoint _ s hdecode, houtputs, h, hhash, ?_⟩
  rw [hzero, ← hzone]
  decide +kernel

end SignedQiOperation

end QuaiSdk
