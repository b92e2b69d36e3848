import QuaiSdk.Consensus.QiValidation

/-!
# The Qi wire codec is a bijection

All three modes of a Qi transaction encode and decode inversely, unsigned and signed, and the walked
message count of an encoding is the analytic one that validation has bounded.
-/

namespace QuaiSdk

open Result Wire QiTransaction BigEndian

variable {C : Crypto}

theorem QiInput.fromProto_protobuf (i : QiInput C) : QiInput.fromProto i.protobuf = .ok i := by
  have hlt := i.previousOutput.index.toNat_lt
  have hindex : (UInt32.ofNat i.previousOutput.index.toNat).toNat = i.previousOutput.index.toNat := by
    rw [UInt32.toNat_ofNat']
    omega
  simp only [fromProto, protobuf, okOr_some, ok_bind, Hash32.ofBytes_bytes, hindex,
    C.fromSec1_toCompressed, UInt16.ofNat_toNat]
  rw [if_neg (by omega)]

theorem QiOutput.fromProto_protobuf (o : QiOutput) : QiOutput.fromProto o.protobuf = .ok o := by
  have hlt := o.denomination.isLt
  have hindex : (UInt32.ofNat o.denomination.index).toNat = o.denomination.index := by
    rw [UInt32.toNat_ofNat']
    omega
  have hlock : integer (some []) "lock" = .ok (U256.ofNat 0) := rfl
  simp only [fromProto, protobuf, hlock, ok_bind, okOr_some, hindex, Denomination.ofIndex_index,
    Address.tryFrom_bytes]
  rfl

namespace QiTransaction

variable {mode : QiMode} {t : QiTransaction C} {b : Bytes}

/-- The decoder reads the payload back whatever the signature field holds. -/
theorem fromProtoFor_rawProto {origin : Zone} (h : t.validateFor mode = .ok origin)
    (signature : Option Bytes) :
    fromProtoFor mode { t.rawProto with signature := signature } = .ok t := by
  have hins : (t.inputs.map QiInput.protobuf).mapM QiInput.fromProto = .ok t.inputs :=
    mapM_map_eq_ok fun i _ => i.fromProto_protobuf
  have houts : (t.outputs.map QiOutput.protobuf).mapM QiOutput.fromProto = .ok t.outputs :=
    mapM_map_eq_ok fun o _ => o.fromProto_protobuf
  simp only [fromProtoFor, rawProto, ne_eq, not_true_eq_false, if_false, okOr_some, ok_bind, hins,
    houts, integer_integerBytes, h]

theorem messages_rawProto (t : QiTransaction C) (signature : Option Bytes) :
    1 + Proto.Transaction.messages { t.rawProto with signature := signature } = t.messages := by
  have hins : (t.inputs.map QiInput.protobuf).map (fun i => 1 + i.messages) =
      t.inputs.map fun _ => 3 := by
    rw [List.map_map]
    rfl
  have hsum : (t.inputs.map fun _ => 3).sum = t.inputs.length * 3 := by simp
  simp only [Proto.Transaction.messages, Proto.slotMessages, rawProto, Proto.Transaction.blank,
    Proto.Inputs.messages, Proto.Outputs.messages, hins, hsum, messages, Option.map_some,
    Option.map_none, Option.getD_some, Option.getD_none, List.length_map]
  omega

theorem protobufFor_eq_ok {p : Proto.Transaction} (h : t.protobufFor mode = .ok p) :
    p = t.rawProto ∧ ∃ origin, t.validateFor mode = .ok origin := by
  simp only [protobufFor, bind_eq_ok] at h
  obtain ⟨origin, horigin, hp⟩ := h
  cases hp
  exact ⟨rfl, origin, horigin⟩

/-- An encoding of a mode's wire form: what it decodes to and what its walk costs. -/
theorem encoded_spec {origin : Zone} (signature : Option Bytes)
    (hvalid : t.validateFor mode = .ok origin)
    (h : encode { t.rawProto with signature := signature } = .ok b) :
    QuaiSdk.decode b = .ok { t.rawProto with signature := signature } ∧
      (∀ budget, preflight b .transaction budget = charge t.messages budget) ∧
      b.length ≤ maxTransactionBytes := by
  have hcount := t.messages_rawProto signature
  obtain ⟨hb, hlen⟩ := encode_eq_ok h
  refine ⟨decode_of_encode h ?_, fun budget => ?_, hlen⟩
  · exact le_of_eq_of_le hcount (validateFor_spec hvalid).messages
  · rw [hb] at hlen ⊢
    rw [preflight_encode _ (lt_of_le_of_lt hlen maxTransactionBytes_lt)]
    exact congrArg (charge · budget) hcount

theorem unsignedBytesFor_spec (h : t.unsignedBytesFor mode = .ok b) :
    QuaiSdk.decode b = .ok t.rawProto ∧ fromProtoFor mode t.rawProto = .ok t ∧
      (∃ origin, t.validateFor mode = .ok origin) ∧
      (∀ budget, preflight b .transaction budget = charge t.messages budget) ∧
      b.length ≤ maxTransactionBytes := by
  simp only [unsignedBytesFor, bind_eq_ok] at h
  obtain ⟨p, hp, hb⟩ := h
  obtain ⟨rfl, origin, hvalid⟩ := protobufFor_eq_ok hp
  obtain ⟨hdecode, hbudget⟩ := encoded_spec none hvalid hb
  exact ⟨hdecode, fromProtoFor_rawProto hvalid none, ⟨origin, hvalid⟩, hbudget⟩

theorem signedBytesFor_spec {signature : C.SchnorrSignature}
    (h : t.signedBytesFor mode signature = .ok b) :
    ∃ p, QuaiSdk.decode b = .ok p ∧ fromProtoFor mode p = .ok t ∧
      readSignature C p = .ok signature ∧ (∃ origin, t.validateFor mode = .ok origin) ∧
      p = { t.rawProto with signature := some (C.schnorrToBytes signature) } ∧
      (∀ budget, preflight b .transaction budget = charge t.messages budget) ∧
      b.length ≤ maxTransactionBytes := by
  simp only [signedBytesFor, bind_eq_ok] at h
  obtain ⟨p, hp, hb⟩ := h
  obtain ⟨rfl, origin, hvalid⟩ := protobufFor_eq_ok hp
  obtain ⟨hdecode, hbudget⟩ := encoded_spec _ hvalid hb
  refine ⟨_, hdecode, fromProtoFor_rawProto hvalid _, ?_, ⟨origin, hvalid⟩, rfl, hbudget⟩
  simp only [readSignature, okOr_some, ok_bind, C.length_schnorrToBytes, ne_eq, not_true_eq_false,
    if_false, C.schnorrFromBytes_toBytes]

end QiTransaction

theorem conversionIntent_of_validateFor {t : QiTransaction C} {origin : Zone}
    (h : t.validateFor .conversion = .ok origin) :
    ∃ intent, conversionIntent t = .ok intent ∧ intent.destination.zone = origin := by
  have hv := validateFor_spec h
  obtain ⟨destination, hdest, hzone, -⟩ := quaiDestination_spec (by decide) hv
  have hdata : t.checkConversion origin = .ok () := hv.data
  simp only [checkConversion, eq_ok] at hdata
  obtain ⟨-, slippage, hslippage, refund, hrefund, -⟩ := hdata
  refine ⟨⟨destination, refund, slippage⟩, ?_, hzone⟩
  rw [conversionIntent, h, ok_bind, hdest, ok_bind, hrefund, ok_bind, hslippage, ok_bind]

theorem wrappingIntent_of_validateFor {t : QiTransaction C} {origin : Zone}
    (h : t.validateFor .wrapping = .ok origin) :
    ∃ intent, wrappingIntent t = .ok intent ∧ intent.destination.zone = origin := by
  have hv := validateFor_spec h
  obtain ⟨destination, hdest, hzone, -⟩ := quaiDestination_spec (by decide) hv
  have hdata : t.checkWrapping origin = .ok () := hv.data
  simp only [checkWrapping, eq_ok] at hdata
  obtain ⟨owner, howner, -⟩ := hdata
  refine ⟨⟨destination, owner⟩, ?_, hzone⟩
  rw [wrappingIntent, h, ok_bind, hdest, ok_bind, howner, ok_bind]

section Inverses

variable {α β : Type} {mode : QiMode} {t : QiTransaction C} {b : Bytes}
  {typed : QiTransaction C → Except TransactionError α} {a : α}

theorem readUnsigned_eq_ok (h : t.unsignedBytesFor mode = .ok b) (ht : typed t = .ok a) :
    readUnsigned mode typed b = .ok a := by
  obtain ⟨hdecode, hread, -⟩ := unsignedBytesFor_spec h
  rw [readUnsigned, hdecode, ok_bind, hread, ok_bind, ht]

theorem readSigned_eq_ok {signature : C.SchnorrSignature} {s : β}
    {attach : α → C.SchnorrSignature → Except TransactionError β}
    (h : t.signedBytesFor mode signature = .ok b) (ht : typed t = .ok a)
    (hs : attach a signature = .ok s) : readSigned mode typed attach b = .ok s := by
  obtain ⟨p, hdecode, hread, hsig, -⟩ := signedBytesFor_spec h
  rw [readSigned, hdecode, ok_bind, hread, ok_bind, ht, ok_bind, hsig, ok_bind, hs]

end Inverses

theorem transfer_unsigned_inverse (C : Crypto) :
    Inverse (unsignedBytes (C := C)) (decodeUnsigned C) :=
  canonical_inverse fun _ _ h => readUnsigned_eq_ok h rfl

theorem conversion_unsigned_inverse (C : Crypto) :
    Inverse (QiConversionTransaction.unsignedBytes (C := C))
      (QiConversionTransaction.decodeUnsigned C) :=
  canonical_inverse fun c _ h => readUnsigned_eq_ok h (withProof_of_ok c.classified)

theorem wrapping_unsigned_inverse (C : Crypto) :
    Inverse (QiWrappingTransaction.unsignedBytes (C := C))
      (QiWrappingTransaction.decodeUnsigned C) :=
  canonical_inverse fun w _ h => readUnsigned_eq_ok h (withProof_of_ok w.classified)

theorem transfer_signed_inverse (C : Crypto) :
    Inverse (SignedQiTransaction.signedBytes (C := C)) (SignedQiTransaction.decode C) :=
  canonical_inverse fun s _ h => readSigned_eq_ok h rfl (withProof_of_ok s.verified)

theorem conversion_signed_inverse (C : Crypto) :
    Inverse (SignedQiConversionTransaction.signedBytes (C := C))
      (SignedQiConversionTransaction.decode C) :=
  canonical_inverse fun s _ h =>
    readSigned_eq_ok h (withProof_of_ok s.transaction.classified) (withProof_of_ok s.verified)

theorem wrapping_signed_inverse (C : Crypto) :
    Inverse (SignedQiWrappingTransaction.signedBytes (C := C))
      (SignedQiWrappingTransaction.decode C) :=
  canonical_inverse fun s _ h =>
    readSigned_eq_ok h (withProof_of_ok s.transaction.classified) (withProof_of_ok s.verified)

/-- The codecs of the three modes, unsigned and signed, and the budget their encodings need. -/
theorem qi_codec_bijective (C : Crypto) :
    (Inverse (unsignedBytes (C := C)) (decodeUnsigned C) ∧
      Inverse (QiConversionTransaction.unsignedBytes (C := C))
        (QiConversionTransaction.decodeUnsigned C) ∧
      Inverse (QiWrappingTransaction.unsignedBytes (C := C))
        (QiWrappingTransaction.decodeUnsigned C)) ∧
    (∀ (t : QiTransaction C) b, t.unsignedBytesFor .conversion = .ok b →
      ∃ c, c.transaction = t ∧ QiConversionTransaction.decodeUnsigned C b = .ok c) ∧
    (∀ (t : QiTransaction C) b, t.unsignedBytesFor .wrapping = .ok b →
      ∃ w, w.transaction = t ∧ QiWrappingTransaction.decodeUnsigned C b = .ok w) ∧
    (Inverse (SignedQiTransaction.signedBytes (C := C)) (SignedQiTransaction.decode C) ∧
      Inverse (SignedQiConversionTransaction.signedBytes (C := C))
        (SignedQiConversionTransaction.decode C) ∧
      Inverse (SignedQiWrappingTransaction.signedBytes (C := C))
        (SignedQiWrappingTransaction.decode C)) ∧
    ∀ mode (t : QiTransaction C) b,
      (t.unsignedBytesFor mode = .ok b ∨ ∃ σ, t.signedBytesFor mode σ = .ok b) →
      (∀ budget, preflight b .transaction budget =
        charge (3 * t.inputs.length + t.outputs.length + 3) budget) ∧
        3 * t.inputs.length + t.outputs.length + 3 ≤ maxTransactionMessages ∧
        b.length ≤ maxTransactionBytes := by
  refine ⟨⟨transfer_unsigned_inverse C, conversion_unsigned_inverse C,
    wrapping_unsigned_inverse C⟩, ?_, ?_, ⟨transfer_signed_inverse C, conversion_signed_inverse C,
    wrapping_signed_inverse C⟩, ?_⟩
  · intro t b h
    obtain ⟨-, -, ⟨origin, hvalid⟩, -⟩ := unsignedBytesFor_spec h
    obtain ⟨intent, hintent, -⟩ := conversionIntent_of_validateFor hvalid
    exact ⟨⟨t, intent, hintent⟩, rfl, (conversion_unsigned_inverse C).decode_encode _ b h⟩
  · intro t b h
    obtain ⟨-, -, ⟨origin, hvalid⟩, -⟩ := unsignedBytesFor_spec h
    obtain ⟨intent, hintent, -⟩ := wrappingIntent_of_validateFor hvalid
    exact ⟨⟨t, intent, hintent⟩, rfl, (wrapping_unsigned_inverse C).decode_encode _ b h⟩
  · intro mode t b h
    have hcount : t.messages = 3 * t.inputs.length + t.outputs.length + 3 := by
      rw [messages, Nat.mul_comm]
    rw [← hcount]
    rcases h with h | ⟨σ, h⟩
    · obtain ⟨-, -, ⟨origin, hvalid⟩, hbudget, hlen⟩ := unsignedBytesFor_spec h
      exact ⟨hbudget, (validateFor_spec hvalid).messages, hlen⟩
    · obtain ⟨p, -, -, -, ⟨origin, hvalid⟩, -, hbudget, hlen⟩ := signedBytesFor_spec h
      exact ⟨hbudget, (validateFor_spec hvalid).messages, hlen⟩

def coinOwnerKey : Bytes := toBytes 33
  0x039dda94404337db1474e67f1d7052f398a0e70ed205c5e94d6e731b06c6f51cd8

theorem coinOwnerKey_length : coinOwnerKey.length = 33 := length_toBytes ..

/-- The chain and the input of a spend of the coin, on the wire. -/
def coinInputs : Bytes := toBytes 82
  0x3a01097a4d0a4b0a260a220a20008000805151515151515151515151515151515151515151515151515151515110051221039dda94404337db1474e67f1d7052f398a0e70ed205c5e94d6e731b06c6f51cd8

def coinSpent : Bytes := toBytes 4 0x08023200 ++ coinInputs

/-- The signature is the last field. -/
def signedWith (unsigned signature : Bytes) : Bytes := unsigned ++ 0x8a :: 0x01 :: 0x40 :: signature

def coinTransferBytes : Bytes :=
  coinSpent ++ toBytes 59
    0x8201380a1a0804121400803333333333333333333333333333333333331a000a1a0802121400804444444444444444444444444444444444441a00

def coinTransferSignature : Bytes := toBytes 64
  0xdb965dcf8b36339bc48dc5f9ede67345f69250da361a083aa533cd4b7f3a7a40c925a95b5621986e46292467d84be1f42b1173dc8378e20fdfad68ade7cfc9fe

def coinTransferSignedBytes : Bytes := signedWith coinTransferBytes coinTransferSignature

theorem coinTransferSignature_length : coinTransferSignature.length = 64 := length_toBytes ..

def coinTransferDigest : Hash32 :=
  Hash32.ofNat 0x27a5a6f07fdf3d6f2fd381721e364f35c8f4e9c6aa938bc7d49543bd2404ddaf

def coinConversionBytes : Bytes :=
  toBytes 26 0x0802321601000080555555555555555555555555555555555555 ++ coinInputs ++ toBytes 59
    0x8201380a1a0804121400112222222222222222222222222222222222221a000a1a0802121400804444444444444444444444444444444444441a00

def coinConversionSignature : Bytes := toBytes 64
  0x54aaddbee88a552ac84b7786c7b16800645116673b36c4d2efac40c6484889bb39f52d9c1de56a5ed276d7af17bc77d0846855a60360899b175f4425d62a2f36

def coinConversionDigest : Hash32 :=
  Hash32.ofNat 0x3e0dd9a8667ff7f589fe2931e707ad98ac2e39579a3ae3aaca16973b6839201c

def coinOwner : Crypto := KnownAnswers.crypto
  { addresses := [(coinOwnerKey, Address.ofNat 0x00edf2d16afbc028fb1e879559b07997af79539f)]
    digests := [(coinTransferBytes, coinTransferDigest), (coinConversionBytes, coinConversionDigest)]
    schnorr := [([coinOwnerKey], coinTransferDigest, coinTransferSignature),
      ([coinOwnerKey], coinConversionDigest, coinConversionSignature)]
    recoveries := [] }

def coinInput : QiInput coinOwner where
  previousOutput := ⟨Hash32.ofNat 0x0080008051515151515151515151515151515151515151515151515151515151, 5⟩
  publicKey := ⟨coinOwnerKey, coinOwnerKey_length⟩

def coinChange : QiOutput := ⟨Address.ofNat 0x0080444444444444444444444444444444444444, .ten⟩

def coinTransfer : QiTransaction coinOwner where
  chainId := U256.ofNat 9
  inputs := [coinInput]
  outputs := [⟨Address.ofNat 0x0080333333333333333333333333333333333333, .hundred⟩, coinChange]
  data := []

def coinConversion : QiTransaction coinOwner where
  chainId := U256.ofNat 9
  inputs := [coinInput]
  outputs := [⟨Address.ofNat 0x0011222222222222222222222222222222222222, .hundred⟩, coinChange]
  data := toBytes 22 0x01000080555555555555555555555555555555555555

def coinTransferSigned : SignedQiTransaction coinOwner where
  transaction := coinTransfer
  signature := ⟨coinTransferSignature, coinTransferSignature_length⟩
  verified := by decide +kernel

theorem qi_codec_bijective_coin :
    coinTransfer.unsignedBytes = .ok coinTransferBytes ∧
      decodeUnsigned coinOwner coinTransferBytes = .ok coinTransfer ∧
      coinTransferSigned.signedBytes = .ok coinTransferSignedBytes ∧
      SignedQiTransaction.decode coinOwner coinTransferSignedBytes = .ok coinTransferSigned ∧
      coinConversion.unsignedBytesFor .conversion = .ok coinConversionBytes ∧
      (∃ c, c.transaction = coinConversion ∧
        QiConversionTransaction.decodeUnsigned coinOwner coinConversionBytes = .ok c) ∧
      preflight coinConversionBytes .transaction 10 = .ok 2 := by
  obtain ⟨⟨htransfer, -, -⟩, hconversion, -, ⟨hsigned, -, -⟩, hbudget⟩ :=
    qi_codec_bijective coinOwner
  have hbytes : coinTransfer.unsignedBytes = .ok coinTransferBytes := by decide +kernel
  have hbytes' : coinTransferSigned.signedBytes = .ok coinTransferSignedBytes := by decide +kernel
  have hconverted : coinConversion.unsignedBytesFor .conversion = .ok coinConversionBytes := by
    decide +kernel
  refine ⟨hbytes, htransfer.decode_encode _ _ hbytes, hbytes', hsigned.decode_encode _ _ hbytes',
    hconverted, hconversion _ _ hconverted, ?_⟩
  rw [(hbudget .conversion coinConversion _ (.inl hconverted)).1]
  rfl

end QuaiSdk
