import QuaiSdk.Abi.Codec
import QuaiSdk.Lib.HeadTail

/-!
# The layout of values

What the encoding of a value is, as a relation between types, values and bytes.  The encoder writes
it and the decoder reads it; both are compared with it and not with each other.
-/

namespace QuaiSdk.Abi

open Result HeadTail
open List (length_append replicate map_cons sum_cons mem_cons_self mem_cons_of_mem)

def textWords (bytes : Bytes) : Bytes :=
  BigEndian.toBytes 32 bytes.length ++ (bytes ++ zeros (padded bytes.length - bytes.length))

def lengthWord (length : Option ℕ) (n : ℕ) : Bytes :=
  if length.isNone = true then BigEndian.toBytes 32 n else []

section

variable (keccak256 : Bytes → Hash32)

mutual

inductive Encodes : AbiType → Json → Bytes → Prop where
  | word {ty : AbiType} {value : Json} {word : Bytes}
      (h : primitiveWord keccak256 ty value = .ok word) : Encodes ty value word
  | bytes {value : Json} {bytes : Bytes} (h : decodeBytes value = some bytes) :
      Encodes .bytes value (textWords bytes)
  | string {text : String} : Encodes .string (.string text) (textWords (utf8 text))
  | array {child : AbiType} {length : Option ℕ} {values : List Json} {parts : List Part}
      (hlength : ∀ n ∈ length, n = values.length)
      (h : EncodesAll (replicate values.length child) values parts) :
      Encodes (.array child length) (.array values)
        (lengthWord length values.length ++ layout parts)
  | tuple {fields : List AbiType} {values : List Json} {parts : List Part}
      (h : EncodesAll fields values parts) : Encodes (.tuple fields) (.array values) (layout parts)

inductive EncodesAll : List AbiType → List Json → List Part → Prop where
  | nil : EncodesAll [] [] []
  | cons {ty : AbiType} {types : List AbiType} {value : Json} {values : List Json} {bytes : Bytes}
      {parts : List Part} (h : Encodes ty value bytes) (hrest : EncodesAll types values parts) :
      EncodesAll (ty :: types) (value :: values) (⟨ty.metadata.dynamic, bytes⟩ :: parts)

end

variable {keccak256}

variable {parts : List Part} {types : List AbiType} {values : List Json} {value : Json}
  {ty : AbiType}

@[elab_as_elim]
theorem Encodes.itemInduction
    {motive : ∀ {ty value bytes}, Encodes keccak256 ty value bytes → Prop}
    (word : ∀ {ty value word} (h : primitiveWord keccak256 ty value = .ok word), motive (.word h))
    (bytes : ∀ {value bytes} (h : decodeBytes value = some bytes), motive (.bytes h))
    (string : ∀ {text}, motive (@Encodes.string keccak256 text))
    (array : ∀ {child length values parts} (hlength : ∀ n ∈ length, n = List.length values)
      (h : EncodesAll keccak256 (replicate values.length child) values parts),
      (∀ ty ∈ replicate values.length child, ∀ value bytes
        (h : Encodes keccak256 ty value bytes), motive h) → motive (.array hlength h))
    (tuple : ∀ {fields values parts} (h : EncodesAll keccak256 fields values parts),
      (∀ ty ∈ fields, ∀ value bytes (h : Encodes keccak256 ty value bytes), motive h) →
      motive (.tuple h)) {ty : AbiType} {value : Json} {bytes : Bytes}
    (h : Encodes keccak256 ty value bytes) : motive h := by
  induction ty generalizing value bytes with
  | array child length ih =>
    cases h with
    | word h => cases h
    | array hlength h =>
      refine array hlength h fun ty hmem value bytes h => ?_
      cases List.eq_of_mem_replicate hmem
      exact ih h
  | tuple fields ih =>
    cases h with
    | word h => cases h
    | tuple h => exact tuple h fun ty hmem value bytes h => ih ty hmem h
  | _ =>
    cases h
    all_goals first | exact word ‹_› | exact bytes ‹_› | exact string

theorem EncodesAll.length (h : EncodesAll keccak256 types values parts) :
    types.length = values.length ∧ parts.length = types.length := by
  induction types generalizing values parts with
  | nil =>
    cases h
    exact ⟨rfl, rfl⟩
  | cons ty types ih =>
    cases h with
    | cons h hrest =>
      obtain ⟨hvalues, hparts⟩ := ih hrest
      exact ⟨congrArg (· + 1) hvalues, congrArg (· + 1) hparts⟩

theorem EncodesAll.part (h : EncodesAll keccak256 types values parts) {p : Part} (hp : p ∈ parts) :
    ∃ ty ∈ types, p.dynamic = ty.metadata.dynamic ∧ ∃ value, Encodes keccak256 ty value p.bytes := by
  induction types generalizing values parts with
  | nil =>
    cases h
    cases hp
  | cons ty types ih =>
    cases h with
    | cons h hrest =>
      rcases List.mem_cons.mp hp with rfl | hp
      · exact ⟨ty, mem_cons_self, rfl, _, h⟩
      · obtain ⟨ty', hty', hpart⟩ := ih hrest hp
        exact ⟨ty', mem_cons_of_mem _ hty', hpart⟩

theorem padded_spec (n : ℕ) : n ≤ padded n ∧ padded n % 32 = 0 := by
  unfold padded
  omega

theorem length_textWords (bytes : Bytes) : (textWords bytes).length = 32 + padded bytes.length := by
  have := padded_spec bytes.length
  rw [textWords, length_append, length_append, BigEndian.length_toBytes, zeros,
    List.length_replicate]
  omega

theorem length_integer {signed : Bool} {bits : ℕ} {word : Bytes}
    (h : integer value signed bits = .ok word) : word.length = 32 := by
  obtain ⟨text, -, h⟩ := bind_eq_ok.mp h
  rw [ite_error_eq_ok] at h
  obtain ⟨-, h⟩ := h
  rw [ite_error_eq_ok, ite_error_eq_ok] at h
  obtain ⟨-, -, h⟩ := h
  split at h
  · rw [ite_error_eq_ok] at h
    obtain ⟨-, h⟩ := h
    cases h
    exact BigEndian.length_toBytes ..
  · rw [ite_error_eq_ok] at h
    obtain ⟨-, h⟩ := h
    cases h
    exact BigEndian.length_toBytes ..

theorem primitiveWord_eq_ok {word : Bytes} (hty : ty.Valid)
    (h : primitiveWord keccak256 ty value = .ok word) :
    word.length = 32 ∧ ty.metadata = .word := by
  cases hty with
  | bool =>
    cases value with
    | bool =>
      cases h
      exact ⟨rfl, rfl⟩
    | _ => cases h
  | int => exact ⟨length_integer h, rfl⟩
  | address =>
    obtain ⟨text, -, h⟩ := bind_eq_ok.mp h
    obtain ⟨address, -, h⟩ := bind_eq_ok.mp h
    cases h
    refine ⟨?_, rfl⟩
    rw [length_append, address.size]
    rfl
  | fixedBytes hn =>
    obtain ⟨bytes, -, h⟩ := bind_eq_ok.mp h
    rw [ite_error_eq_ok, not_not] at h
    obtain ⟨hlength, h⟩ := h
    cases h
    refine ⟨?_, rfl⟩
    have := hn.2
    rw [length_append, hlength, zeros, List.length_replicate]
    omega
  | bytes | string | array | tuple => cases h

theorem head_of_dynamic (h : ty.metadata.dynamic = true) : ty.metadata.head = 32 := by
  cases ty with
  | bytes | string => rfl
  | array | tuple => exact if_pos h
  | bool | int | address | fixedBytes => cases h

theorem EncodesAll.headSize (h : EncodesAll keccak256 types values parts)
    (hstatic : ∀ ty ∈ types, ∀ value bytes, Encodes keccak256 ty value bytes →
      ty.metadata.dynamic = false → bytes.length = ty.metadata.head) :
    HeadTail.headSize parts = (types.map fun ty => ty.metadata.head).sum := by
  induction types generalizing values parts with
  | nil =>
    cases h
    rfl
  | cons ty types ih =>
    cases h with
    | cons h hrest =>
      rw [headSize_cons, map_cons, sum_cons, ih hrest (List.forall_mem_cons.mp hstatic).2]
      congr 1
      unfold Part.head
      split
      · next hdynamic => exact (head_of_dynamic hdynamic).symm
      · next hdynamic =>
        exact hstatic ty mem_cons_self _ _ h (Bool.not_eq_true _ |>.mp hdynamic)

theorem EncodesAll.static (h : EncodesAll keccak256 types values parts)
    (hstatic : ∀ ty ∈ types, ty.metadata.dynamic = false) : tails parts = [] := by
  apply tails_of_static
  intro p hp
  obtain ⟨ty, hty, hdynamic, -⟩ := h.part hp
  rw [hdynamic]
  exact hstatic ty hty

theorem sum_replicate_head (n : ℕ) (child : AbiType) (f : AbiType → ℕ) :
    ((replicate n child).map f).sum = n * f child := by
  rw [List.map_replicate, List.sum_replicate]
  rfl

theorem Encodes.length_of_static (hty : ty.Valid) {bytes : Bytes}
    (h : Encodes keccak256 ty value bytes) (hstatic : ty.metadata.dynamic = false) :
    bytes.length = ty.metadata.head := by
  induction h using Encodes.itemInduction with
  | bytes | string => cases hstatic
  | word h =>
    obtain ⟨hlength, hmeta⟩ := primitiveWord_eq_ok hty h
    rw [hlength, hmeta]
    rfl
  | @array child length values parts hlength h ih =>
    obtain ⟨hsome, hchildStatic⟩ := Bool.or_eq_false_iff.mp hstatic
    obtain ⟨n, rfl⟩ : ∃ n, length = some n := by
      cases length with
      | none => cases hsome
      | some n => exact ⟨n, rfl⟩
    have hitems : ∀ ty ∈ replicate values.length child, ty.metadata.dynamic = false :=
      fun ty hmem => List.eq_of_mem_replicate hmem ▸ hchildStatic
    rw [length_append, length_layout, h.static hitems,
      h.headSize fun ty hmem _ _ h => ih ty hmem _ _ h (hty.item ty hmem), sum_replicate_head,
      AbiType.head_array hstatic, hlength n rfl]
    show 0 + (values.length * child.metadata.head + 0) = child.metadata.head * values.length
    rw [Nat.mul_comm]
    omega
  | @tuple fields values parts h ih =>
    have hfieldsStatic := (AbiType.dynamic_tuple fields).mp hstatic
    rw [length_layout, h.static hfieldsStatic,
      h.headSize fun ty hmem _ _ h => ih ty hmem _ _ h (hty.field ty hmem), AbiType.head_tuple hstatic]
    rfl

theorem Encodes.part_head (hty : ty.Valid) {bytes : Bytes} (h : Encodes keccak256 ty value bytes) :
    Part.head ⟨ty.metadata.dynamic, bytes⟩ = ty.metadata.head := by
  unfold Part.head
  split
  · next hdynamic => exact (head_of_dynamic hdynamic).symm
  · next hdynamic => exact h.length_of_static hty ((Bool.not_eq_true _).mp hdynamic)

theorem EncodesAll.headSize_eq (htypes : ∀ ty ∈ types, ty.Valid)
    (h : EncodesAll keccak256 types values parts) :
    HeadTail.headSize parts = (types.map fun ty => ty.metadata.head).sum :=
  h.headSize fun ty hty _ _ hencodes hstatic => hencodes.length_of_static (htypes ty hty) hstatic

theorem sequenceHead_map {α : Type} {types : List AbiType} {f : AbiType → α} {n : ℕ} :
    sequenceHead ((types.map fun ty => (ty.metadata, f ty)).map Prod.fst) = .ok n ↔
      (types.map fun ty => ty.metadata.head).sum = n ∧ n < 2 ^ 64 := by
  unfold sequenceHead
  rw [List.map_map, List.map_map]
  show (if (types.map fun ty => ty.metadata.head).sum < 2 ^ 64 then _ else _) = _ ↔ _
  split
  · next h =>
    rw [Except.ok.injEq]
    exact ⟨fun hn => ⟨hn, hn ▸ h⟩, And.left⟩
  · next h =>
    constructor
    · intro hn
      cases hn
    · rintro ⟨rfl, hlt⟩
      exact absurd hlt h

theorem layout_aligned (h : ∀ p ∈ parts, p.bytes.length % 32 = 0) :
    (layout parts).length % 32 = 0 := by
  induction parts with
  | nil => rfl
  | cons p parts ih =>
    have hp := h p mem_cons_self
    have hparts := ih (List.forall_mem_cons.mp h).2
    rw [length_layout_cons]
    split <;> omega

theorem EncodesAll.aligned (h : EncodesAll keccak256 types values parts)
    (hall : ∀ ty ∈ types, ∀ value bytes, Encodes keccak256 ty value bytes → bytes.length % 32 = 0) :
    ∀ p ∈ parts, p.bytes.length % 32 = 0 := by
  intro p hp
  obtain ⟨ty, hty, -, value, hencodes⟩ := h.part hp
  exact hall ty hty value _ hencodes

theorem Encodes.aligned (hty : ty.Valid) {bytes : Bytes} (h : Encodes keccak256 ty value bytes) :
    bytes.length % 32 = 0 := by
  have htext : ∀ bytes : Bytes, (textWords bytes).length % 32 = 0 := by
    intro bytes
    have := padded_spec bytes.length
    rw [length_textWords]
    omega
  induction h using Encodes.itemInduction with
  | array hlength h ih =>
    have hlayout := layout_aligned (h.aligned fun ty hmem _ _ h => ih ty hmem _ _ h (hty.item ty hmem))
    rw [length_append, lengthWord]
    split
    · rw [BigEndian.length_toBytes]
      omega
    · rw [List.length_nil]
      omega
  | tuple h ih =>
    exact layout_aligned (h.aligned fun ty hmem _ _ h => ih ty hmem _ _ h (hty.field ty hmem))
  | bytes | string => exact htext _
  | word h => rw [(primitiveWord_eq_ok hty h).1]

theorem length_le_layout {p : Part} (hp : p ∈ parts) : p.bytes.length ≤ (layout parts).length := by
  induction parts with
  | nil => cases hp
  | cons q parts ih =>
    rw [length_layout_cons]
    rcases List.mem_cons.mp hp with rfl | hp
    · omega
    · have := ih hp
      omega

theorem EncodesAll.unique (h : EncodesAll keccak256 types values parts)
    (hall : ∀ ty ∈ types, ∀ value a b, Encodes keccak256 ty value a → Encodes keccak256 ty value b →
      a = b) {others : List Part} (hothers : EncodesAll keccak256 types values others) :
    parts = others := by
  induction types generalizing values parts others with
  | nil =>
    cases h
    cases hothers
    rfl
  | cons ty types ih =>
    cases h with
    | cons h hrest =>
    cases hothers with
    | cons hother hothers =>
    rw [hall ty mem_cons_self _ _ _ h hother, ih hrest (List.forall_mem_cons.mp hall).2 hothers]

theorem Encodes.unique {a b : Bytes} (h : Encodes keccak256 ty value a)
    (hother : Encodes keccak256 ty value b) : a = b := by
  induction h using Encodes.itemInduction generalizing b with
  | tuple h ih =>
    cases hother with
    | word hother => cases hother
    | tuple hother => rw [h.unique (fun ty hmem value _ _ h => ih ty hmem value _ h) hother]
  | array _ h ih =>
    cases hother with
    | word hother => cases hother
    | array _ hother => rw [h.unique (fun ty hmem value _ _ h => ih ty hmem value _ h) hother]
  | bytes h =>
    cases hother with
    | word hother => cases hother
    | bytes hother => rw [Option.some.inj (h.symm.trans hother)]
  | string =>
    cases hother with
    | word hother => cases hother
    | string => rfl
  | word h =>
    cases hother with
    | word hother => exact Except.ok.inj (h.symm.trans hother)
    | _ => cases h

end

end QuaiSdk.Abi
