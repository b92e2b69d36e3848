import QuaiSdk.Consensus.Quai

/-!
# The Quai wire codec is a bijection

Encoding and decoding of account transactions are inverse in both directions, unsigned and signed,
and the decoder's budget accepts everything the encoder writes.
-/

namespace QuaiSdk

open Result Wire QuaiTransaction

namespace QuaiTransaction

theorem fromProto_protobuf (t : QuaiTransaction) (v r s : Option Bytes) :
    fromProto { t.protobuf with v := v, r := r, s := s } = .ok t := by
  have hrecipient : ((t.recipient.map Address.bytes).mapM fun b =>
      (Address.tryFrom b).mapError fun _ => TransactionError.invalidField "to") =
        .ok t.recipient := by
    cases t.recipient with
    | none => rfl
    | some a =>
      change Except.map some (Except.mapError _ (Address.tryFrom a.bytes)) = _
      rw [Address.tryFrom_bytes]
      rfl
  have htuples : (t.accessList.map AccessTuple.protobuf).mapM AccessTuple.fromProto =
      .ok t.accessList :=
    mapM_map_eq_ok fun a _ => a.fromProto_protobuf
  simp only [fromProto, protobuf, ne_eq, not_true_eq_false, if_false, hrecipient, ok_bind, okOr_some,
    htuples, integer_integerBytes]

theorem messages_protobuf (t : QuaiTransaction) (v r s : Option Bytes) :
    1 + Proto.Transaction.messages { t.protobuf with v := v, r := r, s := s } = t.messages := by
  have htuples : (t.accessList.map AccessTuple.protobuf).map (fun a => 1 + a.messages) =
      t.accessList.map fun a => 1 + a.storageKeys.length := by
    rw [List.map_map]
    refine List.map_congr_left fun a _ => ?_
    simp [AccessTuple.protobuf, Proto.AccessTuple.messages]
  simp only [Proto.Transaction.messages, Proto.slotMessages, protobuf, Proto.Transaction.blank,
    Proto.AccessList.messages, htuples, messages, Option.map_some, Option.map_none,
    Option.getD_some, Option.getD_none]
  omega

variable {t : QuaiTransaction} {b : Bytes}

theorem unsignedBytes_eq_ok (h : t.unsignedBytes = .ok b) :
    t.messages ≤ maxTransactionMessages ∧ encode t.protobuf = .ok b := by
  rw [unsignedBytes, ite_error_eq_ok, not_or] at h
  exact ⟨not_lt.mp h.1.1, h.2⟩

theorem readUnsigned_eq_ok (h : t.unsignedBytes = .ok b) : readUnsigned b = .ok t := by
  obtain ⟨hmessages, hencode⟩ := unsignedBytes_eq_ok h
  have hp : decode b = .ok t.protobuf :=
    decode_of_encode hencode (le_of_eq_of_le (t.messages_protobuf none none none) hmessages)
  have ht : fromProto t.protobuf = .ok t := t.fromProto_protobuf none none none
  rw [readUnsigned, hp, ok_bind, ht]

end QuaiTransaction

namespace SignedQuaiTransaction

variable {C : Crypto}

section

variable (s : SignedQuaiTransaction C)

theorem attach_self : attach s.transaction s.signature = .ok s := withProof_of_ok s.recovered

theorem messages_le : s.transaction.messages ≤ maxTransactionMessages := by
  have h := s.recovered
  simp only [recoverSender, signingDigest, eq_ok] at h
  obtain ⟨-, -, digest, ⟨bytes, hbytes, -⟩, -⟩ := h
  exact (unsignedBytes_eq_ok hbytes).1

theorem recoveryId_le : (C.recoveryId s.signature).toNat ≤ 1 := by
  have h := s.recovered
  simp only [recoverSender, ite_error_eq_ok] at h
  exact not_lt.mp h.2.1

end

private theorem toBeBytes_fromBe (h : Hash32) :
    (U256.fromBe h.bytes h.size.le).toBeBytes = h.bytes := by
  have := BigEndian.toBytes_value h.bytes
  rw [h.size] at this
  exact this

theorem read_eq_ok {s : SignedQuaiTransaction C} {b : Bytes} (h : s.signedBytes = .ok b) :
    read C b = .ok s := by
  have hp : QuaiSdk.decode b = .ok s.protobuf := decode_of_encode h (le_of_eq_of_le
      (s.transaction.messages_protobuf s.protobuf.v s.protobuf.r s.protobuf.s) s.messages_le)
  have ht : fromProto s.protobuf = .ok s.transaction :=
    s.transaction.fromProto_protobuf s.protobuf.v s.protobuf.r s.protobuf.s
  have hid := s.recoveryId_le
  have hv : (U256.ofNat (C.recoveryId s.signature).toNat).toNat =
      (C.recoveryId s.signature).toNat := Nat.mod_eq_of_lt (by omega)
  have hsig := C.fromCompact_parts s.signature
  rw [read, hp, ok_bind, ht, ok_bind]
  simp only [protobuf, integer_integerBytes, ok_bind, toBeBytes_fromBe, hv, if_neg (not_lt.mpr hid),
    UInt8.ofNat_toNat, hsig, okOr_some, attach_self]

theorem signed_inverse (C : Crypto) :
    Inverse (SignedQuaiTransaction.signedBytes (C := C)) (SignedQuaiTransaction.decode C) :=
  canonical_inverse fun _ _ => read_eq_ok

theorem decode_signedBytes {s : SignedQuaiTransaction C} {b : Bytes} (h : s.signedBytes = .ok b) :
    decode C b = .ok s := (signed_inverse C).decode_encode s b h

end SignedQuaiTransaction

/-- The two codecs of account transactions: decoding inverts encoding, only canonical bytes decode,
and neither encoder writes bytes that the decoder's size or message budget refuses. -/
theorem quai_codec_bijective (C : Crypto) :
    Inverse unsignedBytes decodeUnsigned ∧
    Inverse (SignedQuaiTransaction.signedBytes (C := C)) (SignedQuaiTransaction.decode C) ∧
    ∀ b, (∃ t, unsignedBytes t = .ok b) ∨
        (∃ s : SignedQuaiTransaction C, s.signedBytes = .ok b) →
      b.length ≤ maxTransactionBytes ∧
        ∃ left, preflight b .transaction maxTransactionMessages = .ok left := by
  have hbudget : ∀ {p : Proto.Transaction} {b : Bytes}, encode p = .ok b →
      1 + p.messages ≤ maxTransactionMessages → b.length ≤ maxTransactionBytes ∧
        ∃ left, preflight b .transaction maxTransactionMessages = .ok left := by
    intro p b hencode hmessages
    obtain ⟨rfl, hlen⟩ := encode_eq_ok hencode
    refine ⟨hlen, maxTransactionMessages - (1 + p.messages), ?_⟩
    rw [preflight_encode p (lt_of_le_of_lt hlen maxTransactionBytes_lt), charge, if_pos hmessages]
  refine ⟨canonical_inverse fun _ _ => QuaiTransaction.readUnsigned_eq_ok,
    SignedQuaiTransaction.signed_inverse C, ?_⟩
  rintro b (⟨t, ht⟩ | ⟨s, hs⟩)
  · obtain ⟨hmessages, hencode⟩ := unsignedBytes_eq_ok ht
    exact hbudget hencode (le_of_eq_of_le (t.messages_protobuf none none none) hmessages)
  · exact hbudget hs (le_of_eq_of_le
      (s.transaction.messages_protobuf s.protobuf.v s.protobuf.r s.protobuf.s) s.messages_le)

/-- Unsigned bytes of `sampleTransfer` at a gas price. -/
def pricedBytes (price : UInt8) : Bytes :=
  BigEndian.toBytes 41
      0x0800121400112222222222222222222222222222222222221803220203e82888a40132003a01094201 ++
    price :: BigEndian.toBytes 62
      0x4a3c0a3a0a14001122222222222222222222222222222222222212220a200707070707070707070707070707070707070707070707070707070707070707

def sampleUnsignedBytes : Bytes := pricedBytes 1

def sampleKeyBytes : Bytes := BigEndian.toBytes 33
  0x03ab8128182b80378bd914c9fcd2831f30a0a095c9d0e52450d4ba27b0f1eec101

def sampleDigest : Hash32 :=
  Hash32.ofNat 0x3f6bfb64a368fc5c33c0de76e8639d60d780cb09218e1d7ad14146937965d45b

def sampleHash : Hash32 :=
  Hash32.ofNat 0xeaccf14826e07da8065f8cda2abea5567a1a6416892214bb0e4484180f3ec148

def sampleR : Hash32 :=
  Hash32.ofNat 0x7bf7ef66124c2ca325dd9edb206249b92f69572dbdf211fcec9a9f7933d0ef93

def sampleS : Hash32 :=
  Hash32.ofNat 0x0c2e6ab2920578ea6616a794929b0c4441c13d0624101ea9567c288118a2d19d

/-- The recovery ID and the two scalars are the last fields. -/
def recoverableWith (unsigned id : Bytes) (r s : Hash32) : Bytes :=
  unsigned ++ 0x52 :: id ++ 0x5a :: 0x20 :: r.bytes ++ 0x62 :: 0x20 :: s.bytes

def sampleSignedBytes : Bytes := recoverableWith sampleUnsignedBytes [0x00] sampleR sampleS

def sampleSender : QuaiAddress :=
  ⟨Address.ofNat 0x0049cda3305ccb9cb23e7ce2528cef555e9a5b32, .cyprus1, by decide +kernel,
    by decide +kernel⟩

/-- An account of the first zone and its signature over `sampleTransfer`. -/
def sampleKnown : KnownAnswers where
  addresses := [(sampleKeyBytes, sampleSender.address)]
  digests := [(sampleUnsignedBytes, sampleDigest), (sampleSignedBytes, sampleHash)]
  schnorr := []
  recoveries := [((sampleR, sampleS, 0, sampleDigest), sampleKeyBytes)]

def sampleAccount : Crypto := sampleKnown.crypto

def sampleTransfer : QuaiTransaction where
  chainId := U256.ofNat 9
  nonce := 3
  recipient := some (Address.ofNat 0x0011222222222222222222222222222222222222)
  value := U256.ofNat 1000
  gasLimit := 21000
  gasPrice := U256.ofNat 1
  data := []
  accessList := [⟨Address.ofNat 0x0011222222222222222222222222222222222222,
    [Hash32.ofNat 0x0707070707070707070707070707070707070707070707070707070707070707]⟩]

def sampleSigned : SignedQuaiTransaction sampleAccount where
  transaction := sampleTransfer
  signature := (sampleR, sampleS, (0 : UInt8))
  sender := sampleSender
  recovered := by decide +kernel

theorem quai_codec_bijective_transfer :
    unsignedBytes sampleTransfer = .ok sampleUnsignedBytes ∧
      decodeUnsigned sampleUnsignedBytes = .ok sampleTransfer ∧
      sampleSigned.signedBytes = .ok sampleSignedBytes ∧
      SignedQuaiTransaction.decode sampleAccount sampleSignedBytes = .ok sampleSigned ∧
      ∃ left, preflight sampleSignedBytes .transaction maxTransactionMessages = .ok left := by
  obtain ⟨hunsigned, hsigned, hbudget⟩ := quai_codec_bijective sampleAccount
  have hbytes : unsignedBytes sampleTransfer = .ok sampleUnsignedBytes := by
    decide +kernel
  have hbytes' : sampleSigned.signedBytes = .ok sampleSignedBytes := by
    decide +kernel
  exact ⟨hbytes, hunsigned.decode_encode _ _ hbytes, hbytes', hsigned.decode_encode _ _ hbytes',
    (hbudget _ (.inr ⟨sampleSigned, hbytes'⟩)).2⟩

end QuaiSdk
