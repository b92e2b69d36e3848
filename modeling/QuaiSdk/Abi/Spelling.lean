import QuaiSdk.Abi.Bijection

/-!
# Spellings of values

The encoder takes numbers in hexadecimal and as JSON numbers, and addresses and bytes in either case.
Whatever it accepts has a canonical spelling with the same encoding, and the decoder returns that one
if its text is within the limit.
-/

namespace QuaiSdk.Abi

open Result HeadTail List BigEndian

variable {keccak256 : Bytes → Hash32} {ty : AbiType} {value : Json} {bytes : Bytes}

theorem length_of_decodeHex {digits : Bytes} (h : decodeHex digits = some bytes) :
    digits.length = 2 * bytes.length := by
  fun_induction decodeHex digits generalizing bytes with
  | case1 =>
    cases h
    rfl
  | case2 => cases h
  | case3 high low rest ih =>
    simp only [Option.bind_eq_bind, Option.bind_eq_some_iff, Option.some.injEq] at h
    obtain ⟨_, -, _, -, tail, htail, rfl⟩ := h
    rw [length_cons, length_cons, length_cons, ih htail]
    omega

theorem decodeBytes_eq_some (h : decodeBytes value = some bytes) :
    nodes value = 1 ∧ bytes.length ≤ maxDataBytes := by
  simp only [decodeBytes, Option.bind_eq_bind, Option.bind_eq_some_iff] at h
  obtain ⟨text, htext, digits, -, found, hfound, h⟩ := h
  have hlength := length_of_decodeHex hfound
  split at h
  · cases h
  · cases h
    rw [Json.asStr_eq_some.mp htext]
    exact ⟨rfl, by omega⟩

theorem integer_inRange {signed : Bool} {bits : ℕ} (h : integer value signed bits = .ok bytes) :
    ∃ z, InRange signed bits z ∧ integerWord z = bytes := by
  simp only [integer, bind_eq_ok, ite_error_eq_ok] at h
  obtain ⟨text, -, -, -, -, h⟩ := h
  generalize radixValue _ _ = n at h
  unfold InRange integerWord
  split at h
  · refine ⟨-n, ?_⟩
    rw [ite_error_eq_ok, not_or, Bool.not_eq_false, not_lt] at h
    rw [if_pos (by omega), if_pos (by omega), Int.natAbs_neg, Int.natAbs_natCast]
    exact ⟨h.1, Except.ok.inj h.2⟩
  · refine ⟨n, ?_⟩
    rw [ite_error_eq_ok, not_le] at h
    exact ⟨h.1, Except.ok.inj h.2⟩

theorem primitiveWord_canonical (hty : ty.Valid)
    (h : primitiveWord keccak256 ty value = .ok bytes) :
    ∃ canonical, Canonical keccak256 ty canonical ∧
      primitiveWord keccak256 ty canonical = .ok bytes := by
  cases hty with
  | bool =>
    cases value with
    | bool b => exact ⟨.bool b, by rw [Canonical]; exact ⟨b, rfl⟩, h⟩
    | _ => cases h
  | int hbits =>
    obtain ⟨z, hz⟩ := integer_inRange h
    refine ⟨_, ?_, (integer_decimalInt hbits.2.1).mpr hz⟩
    exact ⟨z, rfl⟩
  | address =>
    obtain ⟨text, -, h⟩ := bind_eq_ok.mp h
    obtain ⟨address, -, h⟩ := bind_eq_ok.mp h
    refine ⟨.string (address.toText keccak256), ?_, ?_⟩
    · exact ⟨address, rfl⟩
    · show (okOr (some _) _ >>= _) = _
      rw [okOr_some, ok_bind, Address.parse_toText]
      exact h
  | fixedBytes hn =>
    obtain ⟨b, hb, h⟩ := bind_eq_ok.mp h
    refine ⟨.string (toHex b), ?_, ?_⟩
    · exact ⟨b, rfl⟩
    · show (okOr (decodeBytes _) _ >>= _) = _
      rw [decodeBytes_toHex, if_neg (not_lt.mpr (decodeBytes_eq_some (okOr_eq_ok.mp hb)).2),
        okOr_some, ok_bind]
      exact h
  | _ => cases h

variable (keccak256) in
/-- The encoding is that of a canonical value with as many nodes. -/
def Respelled (ty : AbiType) (value : Json) (bytes : Bytes) : Prop :=
  ∃ canonical, Canonical keccak256 ty canonical ∧ Encodes keccak256 ty canonical bytes ∧
    nodes canonical = nodes value

theorem EncodesAll.respelled {types : List AbiType} {values : List Json} {parts : List Part}
    (h : EncodesAll keccak256 types values parts)
    (hall : ∀ ty ∈ types, ∀ value bytes, Encodes keccak256 ty value bytes →
      Respelled keccak256 ty value bytes) :
    ∃ canonical, Canonicals keccak256 types canonical ∧
      EncodesAll keccak256 types canonical parts ∧ nodesAll canonical = nodesAll values := by
  induction types generalizing values parts with
  | nil =>
    cases h
    exact ⟨[], trivial, .nil, rfl⟩
  | cons ty types ih =>
    cases h with
    | cons h hrest =>
      obtain ⟨first, hfirst, hencodes, hnodes⟩ := hall ty mem_cons_self _ _ h
      obtain ⟨rest, hcanonical, hencodesRest, hnodesRest⟩ := ih hrest (forall_mem_cons.mp hall).2
      refine ⟨first :: rest, ⟨hfirst, hcanonical⟩, .cons hencodes hencodesRest, ?_⟩
      rw [nodesAll, nodesAll, hnodes, hnodesRest]

theorem Encodes.respelled (hty : ty.Valid) (h : Encodes keccak256 ty value bytes) :
    Respelled keccak256 ty value bytes := by
  induction h using Encodes.itemInduction with
  | tuple h ih =>
    obtain ⟨items, hitems, hencodes, hnodes⟩ :=
      h.respelled fun ty hmem _ _ h => ih ty hmem _ _ h (hty.field ty hmem)
    refine ⟨.array items, ?_, .tuple hencodes, by rw [nodes_array, nodes_array, hnodes]⟩
    exact ⟨items, rfl, hitems⟩
  | array hlength h ih =>
    obtain ⟨items, hitems, hencodes, hnodes⟩ :=
      h.respelled fun ty hmem _ _ h => ih ty hmem _ _ h (hty.item ty hmem)
    have hsame := hencodes.length.1
    rw [length_replicate] at hsame
    rw [hsame] at hitems hencodes hlength ⊢
    refine ⟨.array items, ?_, .array hlength hencodes, by rw [nodes_array, nodes_array, hnodes]⟩
    exact ⟨items, rfl, (canonicals_replicate le_rfl).mp hitems⟩
  | @bytes _ found h =>
    obtain ⟨hleaf, hbound⟩ := decodeBytes_eq_some h
    refine ⟨.string (toHex found), ?_, .bytes ?_, hleaf.symm⟩
    · exact ⟨found, rfl⟩
    · rw [decodeBytes_toHex, if_neg (not_lt.mpr hbound)]
  | string =>
    refine ⟨_, ?_, .string, rfl⟩
    exact ⟨_, rfl⟩
  | word h =>
    obtain ⟨canonical, hcanonical, hword⟩ := primitiveWord_canonical hty h
    exact ⟨canonical, hcanonical, .word hword,
      (primitiveWord_leaf hword).1.trans (primitiveWord_leaf h).1.symm⟩

variable (keccak256) in
/-- A canonical spelling of the values, with the same encoding part by part. -/
structure Respells (types : List AbiType) (values canonical : List Json) (bytes : Bytes) : Prop where
  spelling : Canonicals keccak256 types canonical
  layout : ∃ parts, EncodesAll keccak256 types values parts ∧
    EncodesAll keccak256 types canonical parts ∧ bytes = layout parts
  nodes : nodesAll canonical = nodesAll values

/-- Whatever was encoded has a canonical spelling, and the decoder returns that one exactly if its text
is within the limit. -/
theorem encoding_read_back {types : List AbiType} (htypes : ∀ ty ∈ types, ty.Valid)
    {values : List Json} (h : encode keccak256 types values = .ok bytes) :
    (∃ canonical, Respells keccak256 types values canonical bytes) ∧
      ∀ canonical, Respells keccak256 types values canonical bytes →
        (decodeValues keccak256 types bytes = .ok canonical ↔
          textBytesAll canonical ≤ maxDataBytes) := by
  obtain ⟨hlimit, hnodes, -, ⟨parts, hparts, rfl⟩, hsize⟩ := (encode_eq_ok htypes).mp h
  constructor
  · obtain ⟨canonical, hcanonical, hencodes, hsame⟩ :=
      hparts.respelled fun ty hty _ _ h => h.respelled (htypes ty hty)
    exact ⟨canonical, hcanonical, ⟨parts, hparts, hencodes, rfl⟩, hsame⟩
  · rintro canonical ⟨hcanonical, ⟨others, -, hencodes, hlayout⟩, hsame⟩
    rw [decodeValues_eq_ok htypes]
    constructor
    · exact fun h => h.2.text
    · exact fun htext =>
        ⟨hcanonical, hlimit, hsame.trans_le hnodes, htext, ⟨others, hencodes, hlayout⟩, hsize⟩

/-- The pair of `quai` and -2, with a JSON number. -/
def pairsNumber : List Json := [.array [.array [.string "quai", .number (.negInt (-2))]]]

theorem pairsNumber_respelled : Respells zeroHash [pairsType] pairsNumber pairsValue pairsBytes := by
  have hencodes : ∀ spelled, primitiveWord zeroHash (.int true 16) spelled = .ok (integerWord (-2)) →
      EncodesAll zeroHash [pairsType] [.array [.array [.string "quai", spelled]]]
        [⟨true, lengthWord none 1 ++ layout [⟨true, layout
          [⟨true, textWords (utf8 "quai")⟩, ⟨false, integerWord (-2)⟩]⟩]⟩] := by
    intro spelled hword
    refine .cons (.array nofun (.cons (.tuple ?_) .nil)) .nil
    exact .cons .string (.cons (.word hword) .nil)
  refine ⟨pairsValue_canonical, ⟨_, hencodes _ (by decide +kernel), hencodes _ ?_, ?_⟩, rfl⟩
  · decide +kernel
  · decide +kernel

theorem encoding_read_back_pairs :
    encode zeroHash [pairsType] pairsNumber = .ok pairsBytes ∧
      Respells zeroHash [pairsType] pairsNumber pairsValue pairsBytes ∧
        decodeValues zeroHash [pairsType] pairsBytes = .ok pairsValue := by
  have hencode : encode zeroHash [pairsType] pairsNumber = .ok pairsBytes := by decide +kernel
  refine ⟨hencode, pairsNumber_respelled, ?_⟩
  exact ((encoding_read_back pairsType_valid hencode).2 _ pairsNumber_respelled).mpr
    (by decide +kernel)

/-! ## A number without text

The encoder charges nothing for a JSON number, the decoder its digits. -/

def wideTypes : List AbiType := [.bytes, .int false 256]

def wideValues (n : ℕ) : List Json := [.string (toHex (zeros n)), .number (.posInt 5)]

def wideParts (n : ℕ) : List Part :=
  [⟨true, textWords (zeros n)⟩, ⟨false, toBytes 32 5⟩]

theorem wideTypes_valid : ∀ ty ∈ wideTypes, ty.Valid := by
  intro ty hty
  rw [wideTypes, mem_pair] at hty
  rcases hty with rfl | rfl
  · exact .bytes
  · exact .int ⟨by decide, by decide, by decide⟩

/-- The text is at its limit before the number. -/
theorem wide_unreadable {n : ℕ} (hn : n * 2 + 2 = maxDataBytes) :
    encode zeroHash wideTypes (wideValues n) = .ok (layout (wideParts n)) ∧
      ∀ values, decodeValues zeroHash wideTypes (layout (wideParts n)) ≠ .ok values := by
  have hmax : maxDataBytes = 2 ^ 20 := rfl
  have hzeros : (zeros n).length = n := length_replicate
  have hbytes : decodeBytes (.string (toHex (zeros n))) = some (zeros n) := by
    rw [decodeBytes_toHex, if_neg (by omega)]
  have hpadded : padded n ≤ n + 31 := by
    unfold padded
    omega
  constructor
  · refine (encode_eq_ok wideTypes_valid).mpr ⟨by decide, ?_, ?_, ⟨wideParts n, ?_, rfl⟩, ?_⟩
    · show 2 ≤ maxValueNodes
      decide
    · show (utf8 (toHex (zeros n))).length + 0 ≤ maxDataBytes
      rw [length_toHex, hzeros]
      omega
    · exact .cons (.bytes hbytes) (.cons (.word (by decide +kernel)) .nil)
    · rw [length_layout, wideParts, length_tails_cons]
      show 64 + ((textWords (zeros n)).length + 0) ≤ maxDataBytes
      rw [length_textWords, hzeros]
      omega
  · intro values h
    obtain ⟨hcanonical, -, -, htext, ⟨parts, hparts, hlayout⟩, -⟩ :=
      (decodeValues_eq_ok wideTypes_valid).mp h
    cases hparts with
    | cons hfirst hrest =>
    cases hrest with
    | cons hsecond hrest =>
    cases hrest
    cases hfirst with
    | word h => cases h
    | bytes hfirst =>
    rename_i found
    cases hsecond with
    | word hsecond =>
    rename_i word
    have hword := length_integer hsecond
    -- both heads are two words long, so the tails agree
    have htail : textWords (zeros n) = textWords found := by
      have hsplit := (append_inj hlayout (by
        rw [length_heads, length_heads]
        show 64 = 32 + (word.length + 0)
        omega)).2
      exact (append_nil _).symm.trans (hsplit.trans (append_nil _))
    have hlength := congrArg value (append_inj htail (by
      rw [length_toBytes, length_toBytes])).1
    have hfound := (decodeBytes_eq_some hfirst).2
    rw [value_toBytes, value_toBytes, hzeros, Nat.mod_eq_of_lt (by omega),
      Nat.mod_eq_of_lt (by omega)] at hlength
    obtain ⟨⟨b, rfl⟩, ⟨z, rfl⟩, -⟩ := hcanonical
    have hdigits : 0 < (decimalInt z).length := by
      unfold decimalInt
      split
      · exact Nat.succ_pos _
      · exact length_pos_of_ne_nil (decimal_ne_nil _)
    rw [decodeBytes_toHex] at hfirst
    split at hfirst
    · cases hfirst
    · cases hfirst
      change (utf8 (toHex found)).length + ((utf8 (asciiText (decimalInt z))).length + 0) ≤ _ at htext
      rw [length_toHex, utf8_asciiText fun c hc => decimalInt_ascii hc] at htext
      omega

theorem encoding_unreadable :
    encode zeroHash wideTypes (wideValues 524287) = .ok (layout (wideParts 524287)) ∧
      ∀ values, decodeValues zeroHash wideTypes (layout (wideParts 524287)) ≠ .ok values :=
  wide_unreadable (by decide)

end QuaiSdk.Abi
