import QuaiSdk.Abi.Decode
import QuaiSdk.Abi.Encode

/-!
# Encoding and decoding are inverse

Both succeed under the same conditions on types, values and bytes: the types are within their
limits, the totals of the values too, and the bytes are the layout of the values.
-/

namespace QuaiSdk.Abi

open Result HeadTail

section

variable {keccak256 : Bytes → Hash32}

variable (keccak256) in
/-- What encoder and decoder agree on. -/
structure Encoded (types : List AbiType) (values : List Json) (bytes : Bytes) : Prop where
  limit : sequenceLimit types = .ok ()
  nodes : nodesAll values ≤ maxValueNodes
  text : textBytesAll values ≤ maxDataBytes
  layout : ∃ parts, EncodesAll keccak256 types values parts ∧ bytes = layout parts
  size : bytes.length ≤ maxDataBytes

theorem encode_eq_ok {types : List AbiType} (htypes : ∀ ty ∈ types, ty.Valid) {values : List Json}
    {bytes : Bytes} :
    encode keccak256 types values = .ok bytes ↔ Encoded keccak256 types values bytes := by
  have hdepth : ∀ ty ∈ types, 0 + ty.metadata.depth ≤ maxDepth := fun ty hty => by
    rw [Nat.zero_add]
    exact (htypes ty hty).bounded.2.2
  have hmeasures : ∀ ty ∈ types, Measures keccak256 ty 0 := fun ty hty =>
    measure_eq_ok (htypes ty hty) (hdepth ty hty)
  -- what is laid out is written
  have hwrite : ∀ {parts : List Part}, EncodesAll keccak256 types values parts →
      (layout parts).length ≤ maxDataBytes →
      writeSequence (writers keccak256 types) values 0 (zeros (layout parts).length) =
        .ok ((layout parts).length, layout parts) := by
    intro parts hparts hsize
    have hwrites := writeSequence_layout htypes
      (fun ty hty _ _ h hsize => write_layout (htypes ty hty) h hsize) hparts hsize [] []
    rw [List.append_nil, List.append_nil] at hwrites
    rw [writers_eq_map]
    exact hwrites.trans (by simp)
  have hfits : ∀ {parts : List Part}, EncodesAll keccak256 types values parts →
      FitsAll 0 values := fun hparts =>
    hparts.fits fun ty hty _ _ h => h.fits (hdepth ty hty)
  unfold encode validate
  constructor
  · intro h
    obtain ⟨size, hvalid, h⟩ := bind_eq_ok.mp h
    obtain ⟨⟨⟩, hlimit, hvalid⟩ := bind_eq_ok.mp hvalid
    rw [ite_error_eq_ok, not_not] at hvalid
    obtain ⟨⟨⟩, hpreflight, hmeasure⟩ := bind_eq_ok.mp hvalid.2
    rw [measures_eq_map] at hmeasure
    obtain ⟨parts, hparts, hlayout, hsize⟩ := (measureSequence_eq_ok htypes hmeasures).mp hmeasure
    rw [← hlayout] at h hsize
    rw [hwrite hparts hsize, ok_bind] at h
    dsimp only at h
    rw [if_neg (not_not.mpr rfl)] at h
    cases h
    obtain ⟨hnodes, htext⟩ := (preflightValues_eq_ok (hfits hparts)).mp hpreflight
    exact ⟨hlimit, hnodes, htext, ⟨parts, hparts, rfl⟩, hsize⟩
  · rintro ⟨hlimit, hnodes, htext, ⟨parts, hparts, rfl⟩, hsize⟩
    rw [hlimit, ok_bind, if_neg (not_not.mpr hparts.length.1),
      (preflightValues_eq_ok (hfits hparts)).mpr ⟨hnodes, htext⟩, ok_bind, measures_eq_map,
      (measureSequence_eq_ok htypes hmeasures).mpr ⟨parts, hparts, rfl, hsize⟩, ok_bind,
      hwrite hparts hsize, ok_bind]
    exact if_neg (not_not.mpr rfl)

theorem decodeValues_eq_ok {types : List AbiType} (htypes : ∀ ty ∈ types, ty.Valid)
    {values : List Json} {bytes : Bytes} :
    decodeValues keccak256 types bytes = .ok values ↔
      Canonicals keccak256 types values ∧ Encoded keccak256 types values bytes := by
  have hexact : ∀ ty ∈ types, Exact keccak256 ty 0 := fun ty hty =>
    decode_exact (htypes ty hty) (by rw [Nat.zero_add]; exact (htypes ty hty).bounded.2.2)
  have hempty : Budget.empty.Within := ⟨Nat.zero_le _, Nat.zero_le _⟩
  unfold decodeValues
  rw [decoders_eq_map]
  constructor
  · intro h
    obtain ⟨⟨⟩, hlimit, h⟩ := bind_eq_ok.mp h
    rw [ite_error_eq_ok, ite_error_eq_ok, not_lt] at h
    obtain ⟨hsize, -, h⟩ := h
    obtain ⟨⟨values', stop, budget⟩, hsequence, h⟩ := bind_eq_ok.mp h
    rw [ite_error_eq_ok, not_not] at h
    obtain ⟨hstop, h⟩ := h
    cases h
    obtain ⟨hcanonicals, ⟨parts, hparts, hholds, rfl⟩, rfl, hwithin⟩ :=
      (decodeSequence_eq_ok htypes hexact hsize hempty).mp hsequence
    rw [Nat.zero_add] at hstop
    exact ⟨hcanonicals, hlimit, (Nat.zero_add _).symm.trans_le hwithin.1,
      (Nat.zero_add _).symm.trans_le hwithin.2, ⟨parts, hparts, (hholds.eq_of_length hstop).symm⟩,
      hsize⟩
  · rintro ⟨hcanonicals, hlimit, hnodes, htext, ⟨parts, hparts, rfl⟩, hsize⟩
    have haligned := layout_aligned <| hparts.aligned fun ty hty _ _ h => h.aligned (htypes ty hty)
    have hwithin : (Budget.empty.spend values).Within :=
      ⟨(Nat.zero_add _).trans_le hnodes, (Nat.zero_add _).trans_le htext⟩
    have hstop : (layout parts).length = 0 + (layout parts).length := (Nat.zero_add _).symm
    rw [hlimit, ok_bind, if_neg (not_lt.mpr hsize), if_neg (not_not.mpr haligned),
      (decodeSequence_eq_ok htypes hexact hsize hempty).mpr
        ⟨hcanonicals, ⟨parts, hparts, Holds.self _, hstop⟩, rfl, hwithin⟩, ok_bind]
    exact if_neg (not_not.mpr rfl)

/-- On canonical values encoding and decoding are inverse, and only canonical values are
decoded: whatever the decoder accepts is the encoding of what it returns. -/
theorem encode_iff_decode {types : List AbiType} (htypes : ∀ ty ∈ types, ty.Valid)
    (bytes : Bytes) :
    (∀ values, Canonicals keccak256 types values →
      (encode keccak256 types values = .ok bytes ↔
        decodeValues keccak256 types bytes = .ok values)) ∧
    ∀ values, decodeValues keccak256 types bytes = .ok values →
      Canonicals keccak256 types values ∧ encode keccak256 types values = .ok bytes := by
  constructor
  · intro values hcanonical
    rw [encode_eq_ok htypes, decodeValues_eq_ok htypes]
    exact ⟨fun h => ⟨hcanonical, h⟩, fun h => h.2⟩
  · intro values h
    obtain ⟨hcanonical, hencoded⟩ := (decodeValues_eq_ok htypes).mp h
    exact ⟨hcanonical, (encode_eq_ok htypes).mpr hencoded⟩

end

def pairsType : AbiType := .array (.tuple [.string, .int true 16]) none

theorem pairsType_valid : ∀ ty ∈ [pairsType], ty.Valid := by
  intro ty hty
  rw [List.mem_singleton.mp hty]
  refine .array (.tuple ?_ ⟨by decide, by decide⟩) ⟨by simp, by decide⟩
  intro field hfield
  rw [List.mem_cons, List.mem_singleton] at hfield
  rcases hfield with rfl | rfl
  · exact .string
  · exact .int ⟨by decide, by decide, by decide⟩

def zeroHash : Bytes → Hash32 := fun _ => Hash32.zero

/-- One pair, of `quai` and -2. -/
def pairsValue : List Json :=
  [.array [.array [.string "quai", .string (asciiText (decimalInt (-2)))]]]

def pairsBytes : Bytes :=
  BigEndian.toBytes 32 0x20 ++ BigEndian.toBytes 32 1 ++ BigEndian.toBytes 32 0x20 ++
    BigEndian.toBytes 32 0x40 ++ integerWord (-2) ++ textWords (utf8 "quai")

theorem pairsValue_canonical : Canonicals zeroHash [pairsType] pairsValue := by
  refine ⟨?_, trivial⟩
  refine ⟨_, rfl, fun item hitem => ?_⟩
  rw [List.mem_singleton.mp hitem, Canonical]
  refine ⟨_, rfl, ?_, ?_, trivial⟩
  · exact ⟨_, rfl⟩
  · exact ⟨-2, rfl⟩

theorem encode_iff_decode_pairs :
    encode zeroHash [pairsType] pairsValue = .ok pairsBytes ∧
      decodeValues zeroHash [pairsType] pairsBytes = .ok pairsValue := by
  have hencode : encode zeroHash [pairsType] pairsValue = .ok pairsBytes := by decide +kernel
  refine ⟨hencode, ?_⟩
  exact ((encode_iff_decode pairsType_valid pairsBytes).1 pairsValue pairsValue_canonical).mp hencode

end QuaiSdk.Abi
