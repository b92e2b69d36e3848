import QuaiSdk.Abi.Layout

/-!
# What values cost

Encoder and decoder both count nodes and text.  The encoder's preflight passes exactly the values
whose totals are within the limits, so the order in which it visits them does not matter.
-/

namespace QuaiSdk.Abi

open Result HeadTail List

mutual

def nodes : Json → ℕ
  | .array items => 1 + nodesAll items
  | _ => 1

def nodesAll : List Json → ℕ
  | [] => 0
  | value :: values => nodes value + nodesAll values

end

mutual

def textBytes : Json → ℕ
  | .string s => (utf8 s).length
  | .array items => textBytesAll items
  | _ => 0

def textBytesAll : List Json → ℕ
  | [] => 0
  | value :: values => textBytes value + textBytesAll values

end

mutual

/-- No objects, and no node too deep. -/
def Fits (depth : ℕ) : Json → Prop
  | .array items => depth ≤ maxDepth ∧ FitsAll (depth + 1) items
  | .object _ => False
  | _ => depth ≤ maxDepth

def FitsAll (depth : ℕ) : List Json → Prop
  | [] => True
  | value :: values => Fits depth value ∧ FitsAll depth values

end

@[simp] theorem nodes_string (s : String) : nodes (.string s) = 1 := rfl

@[simp] theorem nodes_array (items : List Json) : nodes (.array items) = 1 + nodesAll items := rfl

@[simp] theorem textBytes_string (s : String) : textBytes (.string s) = (utf8 s).length := rfl

@[simp] theorem textBytes_array (items : List Json) :
    textBytes (.array items) = textBytesAll items := rfl

theorem nodes_pos (value : Json) : 0 < nodes value := by
  cases value <;> simp [nodes]

theorem nodesAll_append (a b : List Json) : nodesAll (a ++ b) = nodesAll a + nodesAll b := by
  induction a with
  | nil => simp [nodesAll]
  | cons value a ih =>
    rw [cons_append, nodesAll, nodesAll, ih]
    omega

theorem nodesAll_reverse (a : List Json) : nodesAll a.reverse = nodesAll a := by
  induction a with
  | nil => rfl
  | cons value a ih =>
    rw [reverse_cons, nodesAll_append, ih, nodesAll, nodesAll, nodesAll]
    omega

theorem textBytesAll_append (a b : List Json) :
    textBytesAll (a ++ b) = textBytesAll a + textBytesAll b := by
  induction a with
  | nil => simp [textBytesAll]
  | cons value a ih =>
    rw [cons_append, textBytesAll, textBytesAll, ih]
    omega

theorem textBytesAll_reverse (a : List Json) : textBytesAll a.reverse = textBytesAll a := by
  induction a with
  | nil => rfl
  | cons value a ih =>
    rw [reverse_cons, textBytesAll_append, ih, textBytesAll, textBytesAll, textBytesAll]
    omega

theorem length_le_nodesAll (values : List Json) : values.length ≤ nodesAll values := by
  induction values with
  | nil => rfl
  | cons value values ih =>
    have := nodes_pos value
    rw [length_cons, nodesAll]
    omega

theorem fitsAll_iff {depth : ℕ} {values : List Json} :
    FitsAll depth values ↔ ∀ value ∈ values, Fits depth value := by
  induction values with
  | nil => simp [FitsAll]
  | cons value values ih => rw [FitsAll, ih, forall_mem_cons]

theorem Fits.depth_le {depth : ℕ} {value : Json} (h : Fits depth value) : depth ≤ maxDepth := by
  cases value with
  | array => exact h.1
  | object => cases h
  | _ => exact h

theorem node_eq_ok {b c : Budget} {depth : ℕ} : b.node depth = .ok c ↔
      b.nodes + 1 ≤ maxValueNodes ∧ depth ≤ maxDepth ∧ c = { b with nodes := b.nodes + 1 } := by
  rw [Budget.node, ite_error_eq_ok, not_or, not_lt, not_lt]
  constructor
  · rintro ⟨⟨hnodes, hdepth⟩, h⟩
    cases h
    exact ⟨hnodes, hdepth, rfl⟩
  · rintro ⟨hnodes, hdepth, rfl⟩
    exact ⟨⟨hnodes, hdepth⟩, rfl⟩

theorem text_eq_ok {b c : Budget} {n : ℕ} :
    b.text n = .ok c ↔ b.bytes + n ≤ maxDataBytes ∧ c = { b with bytes := b.bytes + n } := by
  rw [Budget.text, ite_error_eq_ok, not_lt]
  constructor
  · rintro ⟨hbytes, h⟩
    cases h
    exact ⟨hbytes, rfl⟩
  · rintro ⟨hbytes, rfl⟩
    exact ⟨hbytes, rfl⟩

def stackValues (stack : List (Json × ℕ)) : List Json := stack.map Prod.fst

theorem stackValues_push (items : List Json) (depth : ℕ) (stack : List (Json × ℕ)) :
    stackValues ((items.map (·, depth)).reverse ++ stack) = items.reverse ++ stackValues stack := by
  rw [stackValues, map_append, map_reverse, map_map]
  congr 2
  exact map_id _

/-- With fuel for all nodes that are left, the loop checks the totals. -/
theorem preflightLoop_eq_ok {fuel : ℕ} {stack : List (Json × ℕ)} {budget : Budget}
    (hfits : ∀ entry ∈ stack, Fits entry.2 entry.1) (hfuel : maxValueNodes < budget.nodes + fuel)
    (hnodes : budget.nodes ≤ maxValueNodes) (hbytes : budget.bytes ≤ maxDataBytes) :
    preflightLoop fuel stack budget = .ok () ↔
      budget.nodes + nodesAll (stackValues stack) ≤ maxValueNodes ∧
        budget.bytes + textBytesAll (stackValues stack) ≤ maxDataBytes := by
  induction fuel generalizing stack budget with
  | zero => omega
  | succ fuel ih =>
    cases stack with
    | nil => exact iff_of_true rfl ⟨hnodes, hbytes⟩
    | cons entry stack =>
      obtain ⟨value, depth⟩ := entry
      have hvalue : Fits depth value := hfits (value, depth) mem_cons_self
      have hstack : ∀ entry ∈ stack, Fits entry.2 entry.1 := (forall_mem_cons.mp hfits).2
      have hpos := nodes_pos value
      rw [preflightLoop, bind_eq_ok]
      simp only [node_eq_ok, and_assoc, exists_and_left, exists_eq_left]
      show _ ↔ budget.nodes + (nodes value + nodesAll (stackValues stack)) ≤ _ ∧
        budget.bytes + (textBytes value + textBytesAll (stackValues stack)) ≤ _
      by_cases hn : budget.nodes + 1 ≤ maxValueNodes
      swap
      · exact iff_of_false (fun h => hn h.1) fun h => hn (by omega)
      -- the rest of the loop, when the value is counted
      have hrest : ∀ {stack bytes}, (∀ entry ∈ stack, Fits entry.2 entry.1) → bytes ≤ maxDataBytes →
          (preflightLoop fuel stack ⟨budget.nodes + 1, bytes⟩ = .ok () ↔
            budget.nodes + 1 + nodesAll (stackValues stack) ≤ maxValueNodes ∧
              bytes + textBytesAll (stackValues stack) ≤ maxDataBytes) := fun hfits hb =>
        ih hfits (by show maxValueNodes < budget.nodes + 1 + fuel; omega) hn hb
      have hdepth := hvalue.depth_le
      simp only [hn, hdepth, true_and]
      cases value with
      | string s =>
        simp only [bind_eq_ok, text_eq_ok, and_assoc, exists_and_left, exists_eq_left]
        rw [nodes_string, textBytes_string]
        by_cases hb : budget.bytes + (utf8 s).length ≤ maxDataBytes
        · rw [hrest hstack hb]
          omega
        · exact iff_of_false (fun h => hb h.1) fun h => hb (by omega)
      | array items =>
        have hpushed : ∀ entry ∈ (items.map (·, depth + 1)).reverse ++ stack,
            Fits entry.2 entry.1 := by
          intro entry hentry
          rcases mem_append.mp hentry with hentry | hentry
          · obtain ⟨item, hitem, rfl⟩ := mem_map.mp (mem_reverse.mp hentry)
            exact fitsAll_iff.mp hvalue.2 item hitem
          · exact hstack entry hentry
        have hlength := length_le_nodesAll items
        have hstackLength := length_le_nodesAll (stackValues stack)
        rw [stackValues, length_map, ← stackValues] at hstackLength
        rw [ite_error_eq_ok, hrest hpushed hbytes, stackValues_push, nodesAll_append,
          nodesAll_reverse, textBytesAll_append, textBytesAll_reverse, nodes_array,
          textBytes_array]
        omega
      | object => cases hvalue
      | _ =>
        show _ ↔ budget.nodes + (1 + _) ≤ _ ∧ budget.bytes + (0 + _) ≤ _
        rw [hrest hstack hbytes]
        omega

/-- Preflight is a matter of totals. -/
theorem preflightValues_eq_ok {values : List Json} (hfits : FitsAll 0 values) :
    preflightValues values = .ok () ↔
      nodesAll values ≤ maxValueNodes ∧ textBytesAll values ≤ maxDataBytes := by
  have hstack : stackValues (values.map (·, 0)).reverse = values.reverse := by
    have hpush := stackValues_push values 0 []
    rwa [append_nil, show stackValues [] = [] from rfl, append_nil] at hpush
  have hentries : ∀ entry ∈ (values.map (·, 0)).reverse, Fits entry.2 entry.1 := by
    intro entry hentry
    obtain ⟨value, hvalue, rfl⟩ := mem_map.mp (mem_reverse.mp hentry)
    exact fitsAll_iff.mp hfits value hvalue
  have hloop := @preflightLoop_eq_ok (maxValueNodes + 2) _ .empty hentries (by decide)
    (Nat.zero_le _) (Nat.zero_le _)
  rw [hstack, nodesAll_reverse, textBytesAll_reverse, Budget.empty, Nat.zero_add,
    Nat.zero_add] at hloop
  have hlength := length_le_nodesAll values
  unfold preflightValues
  rw [ite_error_eq_ok]
  exact ⟨fun h => hloop.mp h.2, fun h => ⟨by omega, hloop.mpr h⟩⟩

section

variable {keccak256 : Bytes → Hash32}

variable {ty : AbiType} {value : Json}

theorem primitiveWord_leaf {word : Bytes} (h : primitiveWord keccak256 ty value = .ok word) :
    nodes value = 1 ∧ ∀ depth ≤ maxDepth, Fits depth value := by
  cases value with
  | array | object => cases ty <;> cases h
  | null | bool | number | string => exact ⟨rfl, fun _ h => h⟩

theorem EncodesAll.fits {depth : ℕ} {types : List AbiType} {values : List Json}
    {parts : List Part} (h : EncodesAll keccak256 types values parts)
    (hall : ∀ ty ∈ types, ∀ value bytes, Encodes keccak256 ty value bytes → Fits depth value) :
    FitsAll depth values := by
  induction types generalizing values parts with
  | nil =>
    cases h
    exact trivial
  | cons ty types ih =>
    cases h with
    | cons h hrest =>
      exact ⟨hall ty mem_cons_self _ _ h, ih hrest (forall_mem_cons.mp hall).2⟩

theorem Encodes.fits {bytes : Bytes} (h : Encodes keccak256 ty value bytes) {depth : ℕ}
    (hdepth : depth + ty.metadata.depth ≤ maxDepth) : Fits depth value := by
  induction h using Encodes.itemInduction generalizing depth with
  | tuple h ih =>
    refine ⟨by omega, h.fits fun ty hmem value bytes h => ?_⟩
    have := AbiType.depth_field hmem
    exact ih ty hmem value bytes h (by omega)
  | array _ h ih =>
    rw [AbiType.depth_array] at hdepth
    refine ⟨by omega, h.fits fun ty hmem value bytes h => ih ty hmem value bytes h ?_⟩
    rw [eq_of_mem_replicate hmem]
    omega
  | bytes h =>
    obtain ⟨text, htext, -⟩ := Option.bind_eq_some_iff.mp h
    rw [Json.asStr_eq_some.mp htext]
    exact Nat.le_of_add_right_le hdepth
  | string => exact Nat.le_of_add_right_le hdepth
  | word h => exact (primitiveWord_leaf h).2 depth (Nat.le_of_add_right_le hdepth)

theorem EncodesAll.minimumNodes {types : List AbiType} {values : List Json} {parts : List Part}
    (h : EncodesAll keccak256 types values parts)
    (hall : ∀ ty ∈ types, ∀ value bytes, Encodes keccak256 ty value bytes →
      ty.metadata.minimumNodes ≤ nodes value) :
    (types.map fun ty => ty.metadata.minimumNodes).sum ≤ nodesAll values := by
  induction types generalizing values parts with
  | nil => exact Nat.zero_le _
  | cons ty types ih =>
    cases h with
    | cons h hrest =>
      have hself := hall ty mem_cons_self _ _ h
      have hothers := ih hrest (forall_mem_cons.mp hall).2
      rw [map_cons, sum_cons, nodesAll]
      omega

theorem Encodes.minimumNodes {bytes : Bytes} (h : Encodes keccak256 ty value bytes) :
    ty.metadata.minimumNodes ≤ nodes value := by
  induction h using Encodes.itemInduction with
  | @tuple fields _ _ h ih =>
    have hfields := h.minimumNodes ih
    rw [AbiType.metadata_tuple, nodes_array]
    show 1 + ((fields.map AbiType.metadata).map Metadata.minimumNodes).sum ≤ _
    rw [map_map]
    exact Nat.add_le_add_left hfields 1
  | @array child length _ _ hlength h ih =>
    have hitems := h.minimumNodes ih
    rw [sum_replicate_head _ _ fun ty => ty.metadata.minimumNodes] at hitems
    rw [AbiType.metadata_array, nodes_array]
    show 1 + length.getD 0 * child.metadata.minimumNodes ≤ _
    cases length with
    | none =>
      rw [Option.getD_none]
      omega
    | some n =>
      rw [Option.getD_some, hlength n rfl]
      omega
  | @word ty _ _ h => cases ty <;> first | exact nodes_pos _ | cases h
  | _ => exact nodes_pos _

end

end QuaiSdk.Abi
