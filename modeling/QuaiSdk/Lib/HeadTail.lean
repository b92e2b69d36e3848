import QuaiSdk.Lib.BigEndian

/-!
# Head and tail layout

A sequence of parts is laid out as a block of heads followed by a block of tails.  A static part
stands in the heads; a dynamic one stands in the tails and has the offset of its tail, one word, in
the heads.
-/

namespace HeadTail

open BigEndian List

structure Part where
  dynamic : Bool
  bytes : List UInt8

def Part.head (p : Part) : ℕ := if p.dynamic = true then 32 else p.bytes.length

def Part.tail (p : Part) : ℕ := if p.dynamic = true then p.bytes.length else 0

def headSize (parts : List Part) : ℕ := (parts.map Part.head).sum

def heads : ℕ → List Part → List UInt8
  | _, [] => []
  | offset, p :: parts =>
    if p.dynamic = true then toBytes 32 offset ++ heads (offset + p.bytes.length) parts
    else p.bytes ++ heads offset parts

def tails : List Part → List UInt8
  | [] => []
  | p :: parts => if p.dynamic = true then p.bytes ++ tails parts else tails parts

def layout (parts : List Part) : List UInt8 := heads (headSize parts) parts ++ tails parts

theorem headSize_cons (p : Part) (parts : List Part) :
    headSize (p :: parts) = p.head + headSize parts := rfl

@[simp] theorem length_heads (offset : ℕ) (parts : List Part) :
    (heads offset parts).length = headSize parts := by
  induction parts generalizing offset with
  | nil => rfl
  | cons p parts ih =>
    rw [heads, headSize_cons, Part.head]
    split
    · rw [length_append, length_toBytes, ih]
    · rw [length_append, ih]

theorem length_layout (parts : List Part) :
    (layout parts).length = headSize parts + (tails parts).length := by
  rw [layout, length_append, length_heads]

theorem length_tails_cons (p : Part) (parts : List Part) :
    (tails (p :: parts)).length = p.tail + (tails parts).length := by
  rw [tails, Part.tail]
  split
  · exact length_append
  · exact (Nat.zero_add _).symm

theorem length_layout_cons (p : Part) (parts : List Part) : (layout (p :: parts)).length =
      p.bytes.length + (if p.dynamic = true then 32 else 0) + (layout parts).length := by
  rw [length_layout, length_layout, length_tails_cons, headSize_cons, Part.head, Part.tail]
  split <;> omega

theorem tails_of_static {parts : List Part} (h : ∀ p ∈ parts, p.dynamic = false) :
    tails parts = [] := by
  induction parts with
  | nil => rfl
  | cons p parts ih =>
    rw [tails, if_neg (by simp [h p mem_cons_self]), ih (forall_mem_cons.mp h).2]

def Holds (bytes : List UInt8) (offset : ℕ) (part : List UInt8) : Prop :=
  ∃ front back, bytes = front ++ part ++ back ∧ front.length = offset

namespace Holds

variable {bytes part other : List UInt8} {offset : ℕ}

theorem length_le (h : Holds bytes offset part) : offset + part.length ≤ bytes.length := by
  obtain ⟨front, back, rfl, rfl⟩ := h
  simp only [length_append]
  omega

theorem take_drop (h : Holds bytes offset part) : (bytes.drop offset).take part.length = part := by
  obtain ⟨front, back, rfl, rfl⟩ := h
  rw [append_assoc, drop_left, take_left]

theorem of_take_drop (hlength : offset + part.length ≤ bytes.length)
    (h : (bytes.drop offset).take part.length = part) : Holds bytes offset part := by
  have hrest : bytes.drop offset = part ++ (bytes.drop offset).drop part.length := by
    conv_lhs => rw [← take_append_drop part.length (bytes.drop offset), h]
  refine ⟨bytes.take offset, (bytes.drop offset).drop part.length, ?_, ?_⟩
  · rw [append_assoc, ← hrest, take_append_drop]
  · rw [length_take]
    omega

theorem append_iff : Holds bytes offset (part ++ other) ↔
      Holds bytes offset part ∧ Holds bytes (offset + part.length) other := by
  constructor
  · rintro ⟨front, back, rfl, rfl⟩
    refine ⟨⟨front, other ++ back, by simp only [append_assoc], rfl⟩,
      ⟨front ++ part, back, by simp only [append_assoc], by rw [length_append]⟩⟩
  · rintro ⟨⟨front, back, rfl, rfl⟩, ⟨front', back', hsplit, hlength⟩⟩
    have hfront : front' = front ++ part := by
      rw [append_assoc front', eq_comm] at hsplit
      exact (append_inj hsplit (by rw [hlength, length_append])).1
    refine ⟨front, back', ?_, rfl⟩
    rw [hsplit, hfront]
    simp only [append_assoc]

theorem nil_iff : Holds bytes offset [] ↔ offset ≤ bytes.length := by
  constructor
  · exact fun h => h.length_le
  · exact fun h => of_take_drop h rfl

/-- Where one part is when its head is at one place and its tail at another. -/
def Place (bytes : List UInt8) (base head tail : ℕ) (p : Part) : Prop :=
  if p.dynamic = true then Holds bytes head (toBytes 32 (tail - base)) ∧ Holds bytes tail p.bytes
  else Holds bytes head p.bytes

theorem parts_cons {base head tail : ℕ} (hbase : base ≤ tail) (p : Part) (parts : List Part) :
    Holds bytes head (heads (tail - base) (p :: parts)) ∧ Holds bytes tail (tails (p :: parts)) ↔
      Place bytes base head tail p ∧
        Holds bytes (head + p.head) (heads (tail + p.tail - base) parts) ∧
        Holds bytes (tail + p.tail) (tails parts) := by
  rw [heads, tails, Place, Part.head, Part.tail]
  split
  · rw [append_iff, append_iff, length_toBytes, Nat.sub_add_comm hbase]
    tauto
  · rw [append_iff, and_assoc]
    rfl

theorem Place.tail_le {base head tail : ℕ} {p : Part} (h : Place bytes base head tail p)
    (htail : tail ≤ bytes.length) : tail + p.tail ≤ bytes.length := by
  rw [Place] at h
  rw [Part.tail]
  by_cases hdynamic : p.dynamic = true
  · rw [if_pos hdynamic] at h ⊢
    exact h.2.length_le
  · rw [if_neg hdynamic]
    exact htail

theorem eq_of_length (h : Holds bytes 0 part) (hlength : part.length = bytes.length) :
    part = bytes := by
  obtain ⟨front, back, rfl, hfront⟩ := h
  rw [length_eq_zero_iff.mp hfront, nil_append, length_append] at hlength
  have hback : back = [] := length_eq_zero_iff.mp (by omega)
  rw [length_eq_zero_iff.mp hfront, hback, nil_append, append_nil]

theorem self (bytes : List UInt8) : Holds bytes 0 bytes := ⟨[], [], by simp, rfl⟩

end Holds

end HeadTail
