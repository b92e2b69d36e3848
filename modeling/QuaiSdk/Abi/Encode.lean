import QuaiSdk.Abi.Layout

/-!
# The encoder writes the layout

`measure` succeeds with the size of the layout, and `write` puts the layout into a buffer of zeros.
-/

namespace QuaiSdk.Abi

open Result HeadTail BigEndian
open List hiding tails

section

variable {keccak256 : Bytes → Hash32}

theorem measures_eq_map (types : List AbiType) :
    measures keccak256 types = types.map fun ty => (ty.metadata, measure keccak256 ty) := by
  induction types with
  | nil => rfl
  | cons ty types ih => rw [measures, ih, map_cons]

variable {n depth : ℕ} {types : List AbiType} {values : List Json}

theorem checkedSize_eq_ok {m : ℕ} : checkedSize n = .ok m ↔ n = m ∧ n ≤ maxDataBytes := by
  rw [checkedSize, ite_error_eq_ok, not_lt]
  constructor
  · rintro ⟨hle, h⟩
    cases h
    exact ⟨rfl, hle⟩
  · rintro ⟨rfl, hle⟩
    exact ⟨hle, rfl⟩

theorem addTail_eq_ok {p : Part} {size m : ℕ} (hsize : size ≤ maxDataBytes) :
    addTail p.dynamic size p.bytes.length = .ok m ↔ size + p.tail = m ∧ m ≤ maxDataBytes := by
  unfold addTail Part.tail
  split
  · rw [checkedSize_eq_ok]
    exact and_congr_right fun h => h ▸ Iff.rfl
  · rw [Except.ok.injEq, Nat.add_zero]
    exact ⟨fun h => ⟨h, h ▸ hsize⟩, And.left⟩

variable (keccak256) in
/-- The measurer of a type accepts the values that have an encoding within the limit. -/
def Measures (ty : AbiType) (depth : ℕ) : Prop :=
  ∀ value n, measure keccak256 ty depth value = .ok n ↔
    ∃ bytes, Encodes keccak256 ty value bytes ∧ bytes.length = n ∧ n ≤ maxDataBytes

section

variable (htypes : ∀ ty ∈ types, ty.Valid) (hmeasures : ∀ ty ∈ types, Measures keccak256 ty depth)
include htypes hmeasures

theorem measureEach_eq_ok (hlength : types.length = values.length)
    {size : ℕ} (hsize : size ≤ maxDataBytes) :
    measureEach depth (types.map fun ty => (ty.metadata, measure keccak256 ty)) values size = .ok n ↔
      ∃ parts, EncodesAll keccak256 types values parts ∧ size + (tails parts).length = n ∧
        n ≤ maxDataBytes := by
  induction types generalizing values size with
  | nil =>
    obtain rfl := length_eq_zero_iff.mp hlength.symm
    constructor
    · rintro ⟨⟩
      exact ⟨[], .nil, rfl, hsize⟩
    · rintro ⟨parts, hparts, rfl, -⟩
      cases hparts
      rfl
  | cons ty types ih =>
    cases values with
    | nil => cases hlength
    | cons value values =>
      have hty := htypes ty mem_cons_self
      have hself := hmeasures ty mem_cons_self value
      have hrecurse := @ih values (forall_mem_cons.mp htypes).2
        (forall_mem_cons.mp hmeasures).2 (Nat.succ_inj.mp hlength)
      rw [map_cons, measureEach, bind_eq_ok]
      constructor
      · rintro ⟨m, hm, h⟩
        obtain ⟨size', hsize', hrest⟩ := bind_eq_ok.mp h
        obtain ⟨bytes, hbytes, rfl, -⟩ := (hself m).mp hm
        obtain ⟨rfl, hle⟩ := (@addTail_eq_ok ⟨_, bytes⟩ _ _ hsize).mp hsize'
        obtain ⟨parts, hparts, hn⟩ := (hrecurse hle).mp hrest
        refine ⟨_, .cons hbytes hparts, ?_⟩
        rw [length_tails_cons, ← Nat.add_assoc]
        exact hn
      · rintro ⟨parts, hparts, hsum, hn⟩
        cases hparts with
        | cons hbytes hrest =>
          rename_i bytes parts
          rw [length_tails_cons, ← Nat.add_assoc] at hsum
          have hnext := Nat.le_of_add_right_le (hsum.trans_le hn)
          have hbound : bytes.length ≤ maxDataBytes := by
            rw [Part.tail] at hnext
            split at hnext
            · exact Nat.le_of_add_left_le hnext
            · next hdynamic =>
              rw [hbytes.length_of_static hty ((Bool.not_eq_true _).mp hdynamic)]
              exact hty.bounded.2.1
          refine ⟨_, (hself _).mpr ⟨bytes, hbytes, rfl, hbound⟩, ?_⟩
          rw [(@addTail_eq_ok ⟨_, bytes⟩ _ _ hsize).mpr ⟨rfl, hnext⟩, ok_bind]
          exact (hrecurse hnext).mpr ⟨parts, hrest, hsum, hn⟩

theorem measureSequence_eq_ok :
    measureSequence (types.map fun ty => (ty.metadata, measure keccak256 ty)) values depth = .ok n ↔
      ∃ parts, EncodesAll keccak256 types values parts ∧ (layout parts).length = n ∧
        n ≤ maxDataBytes := by
  have hmax : maxDataBytes < 2 ^ 64 := by decide
  unfold measureSequence
  rw [ite_error_eq_ok, not_not, length_map]
  simp only [bind_eq_ok, sequenceHead_map, checkedSize_eq_ok]
  constructor
  · rintro ⟨hlength, _, ⟨rfl, -⟩, _, ⟨rfl, hle⟩, heach⟩
    obtain ⟨parts, hparts, hn⟩ := (measureEach_eq_ok htypes hmeasures hlength hle).mp heach
    refine ⟨parts, hparts, ?_⟩
    rw [length_layout, hparts.headSize_eq htypes]
    exact hn
  · rintro ⟨parts, hparts, hn, hle⟩
    rw [length_layout, hparts.headSize_eq htypes] at hn
    refine ⟨hparts.length.1, _, ⟨rfl, by omega⟩, _, ⟨rfl, by omega⟩, ?_⟩
    exact (measureEach_eq_ok htypes hmeasures hparts.length.1 (by omega)).mpr ⟨parts, hparts, hn, hle⟩

end

theorem measure_eq_ok {ty : AbiType} (hty : ty.Valid)
    (hdepth : depth + ty.metadata.depth ≤ maxDepth) : Measures keccak256 ty depth := by
  induction ty generalizing depth with
  | tuple fields ih =>
    cases hty with
    | tuple hfields =>
    have hall : ∀ ty ∈ fields, Measures keccak256 ty (depth + 1) := by
      intro ty hmem
      have := AbiType.depth_field hmem
      exact ih ty hmem (hfields ty hmem) (by omega)
    intro value n
    unfold measure
    rw [if_neg (by omega)]
    dsimp only
    rw [measures_eq_map, bind_eq_ok]
    constructor
    · rintro ⟨values, hvalues, hseq⟩
      obtain ⟨parts, hparts, hn⟩ := (measureSequence_eq_ok hfields hall).mp hseq
      rw [Json.asArray_eq_some.mp (okOr_eq_ok.mp hvalues)]
      exact ⟨_, .tuple hparts, hn⟩
    · rintro ⟨bytes, h, hn⟩
      cases h with
      | word h => cases h
      | tuple hparts => exact ⟨_, rfl, (measureSequence_eq_ok hfields hall).mpr ⟨_, hparts, hn⟩⟩
  | array child length ih =>
    cases hty with
    | array hchild =>
    rw [AbiType.depth_array] at hdepth
    have hvalid : ∀ k, ∀ ty ∈ replicate k child, ty.Valid := fun k ty hmem =>
      eq_of_mem_replicate hmem ▸ hchild
    have hall : ∀ k, ∀ ty ∈ replicate k child, Measures keccak256 ty (depth + 1) := by
      intro k ty hmem
      rw [eq_of_mem_replicate hmem]
      exact ih hchild (by omega)
    have hword : ∀ k, (lengthWord length k).length = if length.isNone = true then 32 else 0 := by
      intro k
      unfold lengthWord
      split
      · exact length_toBytes ..
      · rfl
    intro value n
    unfold measure
    rw [if_neg (by omega)]
    simp only [ite_error_eq_ok, bind_eq_ok, checkedSize_eq_ok, ← map_replicate
      (f := fun ty : AbiType => (ty.metadata, measure keccak256 ty)),
      measureSequence_eq_ok (hvalid _) (hall _)]
    constructor
    · rintro ⟨values, hvalues, hlength, _, ⟨parts, hparts, rfl, -⟩, hn, hle⟩
      rw [Json.asArray_eq_some.mp (okOr_eq_ok.mp hvalues)]
      refine ⟨_, .array ?_ hparts, ?_, hn ▸ hle⟩
      · intro k hk
        by_contra hne
        apply hlength
        rw [Option.mem_def.mp hk]
        exact decide_eq_true hne
      · rw [length_append, hword, Nat.add_comm]
        exact hn
    · rintro ⟨bytes, h, hn, hle⟩
      cases h with
      | word h => cases h
      | array hlength hparts =>
        rename_i values parts
        rw [length_append, hword] at hn
        refine ⟨values, rfl, ?_, _, ⟨parts, hparts, rfl, by omega⟩, by omega, by omega⟩
        cases length with
        | none => simp
        | some k => simp [hlength k rfl]
  | bytes =>
    intro value n
    unfold measure
    rw [if_neg (by omega), bind_eq_ok]
    simp only [okOr_eq_ok, checkedSize_eq_ok, ← length_textWords]
    constructor
    · rintro ⟨bytes, hbytes, rfl, hle⟩
      exact ⟨_, .bytes hbytes, rfl, hle⟩
    · rintro ⟨_, h, rfl, hle⟩
      cases h with
      | word h => cases h
      | bytes h => exact ⟨_, h, rfl, hle⟩
  | string =>
    intro value n
    unfold measure
    rw [if_neg (by omega), bind_eq_ok]
    simp only [okOr_eq_ok, checkedSize_eq_ok, ← length_textWords]
    constructor
    · rintro ⟨text, htext, rfl, hle⟩
      rw [Json.asStr_eq_some.mp htext]
      exact ⟨_, .string, rfl, hle⟩
    · rintro ⟨_, h, rfl, hle⟩
      cases h with
      | word h => cases h
      | string => exact ⟨_, rfl, rfl, hle⟩
  | _ =>
    intro value n
    unfold measure
    rw [if_neg (by omega)]
    rw [map_eq_ok]
    constructor
    · rintro ⟨word, hword, rfl⟩
      exact ⟨word, .word hword, (primitiveWord_eq_ok hty hword).1, by decide⟩
    · rintro ⟨bytes, h, rfl, -⟩
      cases h with
      | word h => exact ⟨bytes, h, (primitiveWord_eq_ok hty h).1.symm⟩

theorem writers_eq_map (types : List AbiType) :
    writers keccak256 types = types.map fun ty => (ty.metadata, write keccak256 ty) := by
  induction types with
  | nil => rfl
  | cons ty types ih => rw [writers, ih, map_cons]

theorem zeros_add (m n : ℕ) : zeros (m + n) = zeros m ++ zeros n := replicate_add ..

@[simp] theorem length_zeros (n : ℕ) : (zeros n).length = n := length_replicate

theorem put_append {front old data back : Bytes} (h : old.length = data.length) :
    put (front ++ (old ++ back)) front.length data = front ++ (data ++ back) := by
  rw [put, take_left, ← h, ← drop_drop, drop_left, drop_left, append_assoc]

/-- A writer puts an encoding in place of as many zeros. -/
def Writes (f : ℕ → Bytes → Except AbiError (ℕ × Bytes)) (bytes : Bytes) : Prop :=
  ∀ front back, f front.length (front ++ (zeros bytes.length ++ back)) =
    .ok (front.length + bytes.length, front ++ (bytes ++ back))

/-- The rest of the heads and of the tails, when the buffer has heads, a gap of tails and zeros for
what is to come. -/
theorem writeEach_layout {parts : List Part} (htypes : ∀ ty ∈ types, ty.Valid)
    (hwrite : ∀ ty ∈ types, ∀ value bytes, Encodes keccak256 ty value bytes →
      bytes.length ≤ maxDataBytes → Writes (write keccak256 ty value) bytes)
    (h : EncodesAll keccak256 types values parts)
    (hparts : ∀ p ∈ parts, p.bytes.length ≤ maxDataBytes) {base : ℕ} (front gap back : Bytes)
    (hbase : base ≤ front.length) :
    writeEach base (types.map fun ty => (ty.metadata, write keccak256 ty)) values front.length
      (front.length + headSize parts + gap.length)
      (front ++ (zeros (headSize parts) ++ (gap ++ (zeros (tails parts).length ++ back)))) =
    .ok (front.length + headSize parts + gap.length + (tails parts).length,
      front ++ (heads (front.length + headSize parts + gap.length - base) parts ++
        (gap ++ (tails parts ++ back)))) := by
  induction types generalizing values parts front gap with
  | nil =>
    cases h
    rfl
  | cons ty types ih =>
    cases h with
    | cons h hrest =>
      rename_i value values bytes parts
      have hty := htypes ty mem_cons_self
      have hrecurse := fun front gap hbase => @ih values parts (forall_mem_cons.mp htypes).2
        (forall_mem_cons.mp hwrite).2 hrest
        (forall_mem_cons.mp hparts).2 front gap hbase
      have hself := hwrite ty mem_cons_self value bytes h (hparts _ mem_cons_self)
      rw [map_cons, writeEach, heads, tails]
      by_cases hdynamic : ty.metadata.dynamic = true
      · have hhead : headSize (⟨ty.metadata.dynamic, bytes⟩ :: parts) = 32 + headSize parts := by
          rw [headSize_cons, Part.head, if_pos hdynamic]
        -- first the offset, then the tail behind the tails so far
        rw [if_pos hdynamic, if_pos hdynamic, if_pos hdynamic, hhead, zeros_add, append_assoc]
        rw [putUsize, put_append (by rw [length_zeros, length_toBytes])]
        generalize hoffset : front.length + (32 + headSize parts) + gap.length - base = offset
        have htail : front.length + (32 + headSize parts) + gap.length =
            (front ++ (toBytes 32 offset ++ (zeros (headSize parts) ++ gap))).length := by
          simp only [length_append, length_toBytes, length_zeros]
          omega
        have hbuffer : front ++ (toBytes 32 offset ++ (zeros (headSize parts) ++ (gap ++
              (zeros (bytes ++ tails parts).length ++ back)))) =
            (front ++ (toBytes 32 offset ++ (zeros (headSize parts) ++ gap))) ++
              (zeros bytes.length ++ (zeros (tails parts).length ++ back)) := by
          rw [length_append, zeros_add]
          simp only [append_assoc]
        rw [hbuffer, htail, hself, ok_bind, ← htail]
        rw [head_of_dynamic hdynamic]
        have hrest := hrecurse (front ++ toBytes 32 offset) (gap ++ bytes)
          (by rw [length_append]; omega)
        have hnext : front.length + 32 + headSize parts + (gap ++ bytes).length =
            front.length + (32 + headSize parts) + gap.length + bytes.length := by
          rw [length_append]
          omega
        rw [length_append, length_toBytes, hnext,
          show front.length + (32 + headSize parts) + gap.length + bytes.length - base =
            offset + bytes.length by omega] at hrest
        simp only [append_assoc] at hrest ⊢
        rw [hrest, length_append, Nat.add_assoc _ bytes.length]
      · have hhead : headSize (⟨ty.metadata.dynamic, bytes⟩ :: parts) =
            bytes.length + headSize parts := by
          rw [headSize_cons, Part.head, if_neg hdynamic]
        have hlength := h.length_of_static hty ((Bool.not_eq_true _).mp hdynamic)
        rw [if_neg hdynamic, if_neg hdynamic, if_neg hdynamic, hhead, zeros_add, append_assoc]
        rw [hself, ok_bind]
        have hrest := hrecurse (front ++ bytes) gap (by rw [length_append]; omega)
        have hnext : front.length + bytes.length + headSize parts + gap.length =
            front.length + (bytes.length + headSize parts) + gap.length := by
          omega
        rw [length_append, hnext, hlength] at hrest
        rw [hlength]
        simp only [append_assoc] at hrest ⊢
        exact hrest

theorem writeSequence_layout {parts : List Part} (htypes : ∀ ty ∈ types, ty.Valid)
    (hwrite : ∀ ty ∈ types, ∀ value bytes, Encodes keccak256 ty value bytes →
      bytes.length ≤ maxDataBytes → Writes (write keccak256 ty value) bytes)
    (h : EncodesAll keccak256 types values parts)
    (hsize : (layout parts).length ≤ maxDataBytes) :
    Writes (writeSequence (types.map fun ty => (ty.metadata, write keccak256 ty)) values)
      (layout parts) := by
  intro front back
  have hmax : maxDataBytes < 2 ^ 64 := by decide
  have hsequence : sequenceHead ((types.map fun ty => (ty.metadata, write keccak256 ty)).map
      Prod.fst) = .ok (headSize parts) := by
    rw [sequenceHead_map, ← h.headSize_eq htypes]
    rw [length_layout] at hsize
    exact ⟨rfl, by omega⟩
  have heach := writeEach_layout htypes hwrite h
    (fun p hp => (length_le_layout hp).trans hsize) front [] back le_rfl
  unfold writeSequence
  rw [hsequence, ok_bind, length_layout, zeros_add, append_assoc]
  rw [length_nil, Nat.add_zero, nil_append, nil_append, Nat.add_sub_cancel_left] at heach
  rw [heach, layout, append_assoc, Nat.add_assoc]

theorem writeBytes_textWords (bytes front back : Bytes) :
    writeBytes bytes front.length (front ++ (zeros (textWords bytes).length ++ back)) =
      (front.length + (textWords bytes).length, front ++ (textWords bytes ++ back)) := by
  have hpadded := (padded_spec bytes.length).1
  have hzeros : zeros (textWords bytes).length =
      zeros 32 ++ (zeros bytes.length ++ zeros (padded bytes.length - bytes.length)) := by
    rw [← zeros_add, ← zeros_add, length_textWords]
    congr 1
    omega
  have hput := @put_append (front ++ toBytes 32 bytes.length) (zeros bytes.length) bytes
    (zeros (padded bytes.length - bytes.length) ++ back) (length_zeros _)
  rw [length_append, length_toBytes] at hput
  unfold writeBytes
  rw [hzeros, append_assoc, putUsize,
    put_append (by rw [length_zeros, length_toBytes]), length_textWords, textWords]
  simp only [append_assoc] at hput ⊢
  rw [hput, Nat.add_assoc]

theorem write_layout {ty : AbiType} (hty : ty.Valid) {value : Json} {bytes : Bytes}
    (h : Encodes keccak256 ty value bytes) (hsize : bytes.length ≤ maxDataBytes) :
    Writes (write keccak256 ty value) bytes := by
  induction h using Encodes.itemInduction with
  | tuple h ih =>
    intro front back
    show writeSequence (writers keccak256 _) _ _ _ = _
    rw [writers_eq_map]
    exact writeSequence_layout hty.field
      (fun ty hmem _ _ h hlength => ih ty hmem _ _ h (hty.field ty hmem) hlength) h hsize front back
  | @array child length values parts _ h ih =>
    intro front back
    rw [length_append] at hsize
    have hsequence := writeSequence_layout hty.item
      (fun ty hmem _ _ h hlength => ih ty hmem _ _ h (hty.item ty hmem) hlength) h (by omega)
    rw [map_replicate] at hsequence
    show writeSequence (replicate values.length (child.metadata, write keccak256 child))
      values (writeLength length values.length front.length _).1
      (writeLength length values.length front.length _).2 = _
    cases length with
    | none =>
      have hword : lengthWord none values.length = toBytes 32 values.length := rfl
      have hbody := hsequence (front ++ toBytes 32 values.length) back
      rw [length_append, length_toBytes] at hbody
      rw [hword, length_append, length_toBytes, zeros_add, append_assoc]
      show writeSequence _ values (front.length + 32) (putUsize _ front.length values.length) = _
      rw [putUsize, put_append (by rw [length_zeros, length_toBytes])]
      simp only [append_assoc] at hbody ⊢
      rw [hbody, Nat.add_assoc]
    | some => exact hsequence front back
  | @bytes value _ h =>
    intro front back
    show (okOr (decodeBytes value) AbiError.value >>= _) = _
    rw [h, okOr_some, ok_bind, writeBytes_textWords]
  | string =>
    intro front back
    show Except.ok (writeBytes _ _ _) = _
    rw [writeBytes_textWords]
  | @word ty _ _ h =>
    intro front back
    have hlength := (primitiveWord_eq_ok hty h).1
    cases ty <;> first | cases h | (unfold write; rw [h, ok_bind, put_append (length_zeros _), hlength])

end

end QuaiSdk.Abi
