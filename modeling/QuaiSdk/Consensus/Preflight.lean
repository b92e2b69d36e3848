import QuaiSdk.Consensus.Codec

/-!
# The decoder's budget

The walk over an encoding charges one message for every submessage, exactly as many as the encoded
value holds, so that whatever `encode` writes within the message bound `decode` reads back.
-/

namespace QuaiSdk

open Result Wire Proto List

/-- Take `n` messages off the budget. -/
def charge (n budget : ℕ) : Except TransactionError ℕ :=
  if n ≤ budget then .ok (budget - n) else .error .tooLarge

theorem takeMessage_eq (budget : ℕ) : takeMessage budget = charge 1 budget := by
  unfold takeMessage charge
  by_cases h : budget = 0
  · rw [if_pos h, if_neg (by omega)]
  · rw [if_neg h, if_pos (by omega)]

theorem charge_bind (m n budget : ℕ) : (charge m budget >>= charge n) = charge (m + n) budget := by
  unfold charge
  by_cases hm : m ≤ budget
  · rw [if_pos hm, ok_bind]
    by_cases hn : n ≤ budget - m
    · rw [if_pos hn, if_pos (by omega), Nat.sub_sub]
    · rw [if_neg hn, if_neg (by omega)]
  · rw [if_neg hm, if_neg (by omega), error_bind]

/-- Walking these bytes takes exactly `n` messages off the budget. -/
def Counts (kind : WireKind) (bytes : Bytes) (n : ℕ) : Prop :=
  ∀ fuel budget, bytes.length ≤ fuel → walk fuel bytes kind budget = charge n budget

theorem counts_nil (kind : WireKind) : Counts kind [] 0 := by
  intro fuel budget _
  cases fuel <;> rfl

theorem walk_write {f : Field} (hplain : f.Plain) (hlen : f.write.length < 2 ^ 64) (fuel : ℕ)
    (rest : Bytes) (kind : WireKind) (budget : ℕ) :
    walk (fuel + 1) (f.write ++ rest) kind budget = match f.value, kind.child f.tag with
      | .bytes part, some child => do
        let budget ← takeMessage budget
        let budget ← walk fuel part child budget
        walk fuel rest kind budget
      | _, _ => walk fuel rest kind budget := by
  obtain ⟨b, bs, hb⟩ := exists_cons_of_ne_nil f.write_ne_nil
  have hkey := readVarint_writeField hplain rest
  have hpos : f.tag ≠ 0 := Nat.pos_iff_ne_zero.mp hplain.pos
  have hvalue := readValue_write hplain.value (lt_of_le_of_lt f.length_value_le hlen) rest
  rw [hb, cons_append] at hkey ⊢
  rw [walk, hkey]
  simp only [okOr_some, ok_bind, key_div, key_mod, if_neg hpos]
  exact hvalue ▸ rfl

/-- Written in front of any bytes, these fields add `n` messages to the walk. -/
def CountsFields (kind : WireKind) (fs : List Field) (n : ℕ) : Prop :=
  ∀ rest m, Counts kind rest m → Counts kind (writeFields fs ++ rest) (n + m)

namespace CountsFields

variable {kind : WireKind}

theorem nil : CountsFields kind [] 0 := by
  intro rest m h
  rw [Nat.zero_add]
  exact h

variable {fs : List Field} {n : ℕ}

theorem append {gs : List Field} {m : ℕ} (hf : CountsFields kind fs m) (hg : CountsFields kind gs n) :
    CountsFields kind (fs ++ gs) (m + n) := by
  intro rest k h
  have hboth := hf _ _ (hg rest k h)
  rw [← append_assoc, ← Nat.add_assoc] at hboth
  rw [writeFields, flatMap_append]
  exact hboth

theorem leaf {f : Field} (hplain : f.Plain) (hlen : f.write.length < 2 ^ 64)
    (hchild : kind.child f.tag = none) : CountsFields kind [f] 0 := by
  intro rest m h fuel budget hfuel
  have hpos := length_pos_of_ne_nil f.write_ne_nil
  have hsplit : writeFields [f] ++ rest = f.write ++ rest := by simp [writeFields]
  rw [hsplit, length_append] at hfuel
  obtain ⟨fuel, rfl⟩ : ∃ k, fuel = k + 1 := ⟨fuel - 1, by omega⟩
  rw [hsplit, walk_write hplain hlen, hchild, Nat.zero_add]
  cases f.value with
  | bytes | varint | fixed64 | fixed32 => exact h fuel budget (by omega)

theorem sub {tag : ℕ} {part : Bytes} {child : WireKind} (hplain : Field.Plain ⟨tag, .bytes part⟩)
    (hlen : (Field.write ⟨tag, .bytes part⟩).length < 2 ^ 64) (hchild : kind.child tag = some child)
    (hpart : Counts child part n) :
    CountsFields kind [⟨tag, .bytes part⟩] (1 + n) := by
  intro rest m h fuel budget hfuel
  have hlong : part.length < (Field.write ⟨tag, .bytes part⟩).length := by
    have := length_pos_of_ne_nil (writeVarint_ne_nil (tag * 8 + 2))
    simp only [Field.write, Value.write, Value.wireType, length_append]
    omega
  have hsplit : writeFields [⟨tag, .bytes part⟩] ++ rest =
      Field.write ⟨tag, .bytes part⟩ ++ rest := by simp [writeFields]
  rw [hsplit, length_append] at hfuel
  obtain ⟨fuel, rfl⟩ : ∃ k, fuel = k + 1 := ⟨fuel - 1, by omega⟩
  rw [hsplit, walk_write hplain hlen, hchild]
  calc (do
        let budget ← takeMessage budget
        let budget ← walk fuel part child budget
        walk fuel rest kind budget)
      = (charge 1 budget >>= fun b => charge n b >>= charge m) := by
        rw [takeMessage_eq]
        congr 1
        funext b
        rw [hpart fuel b (by omega)]
        congr 1
        funext b'
        exact h fuel b' (by omega)
    _ = charge (1 + n + m) budget := by
        simp only [charge_bind, Nat.add_assoc]

theorem leaves (hplain : ∀ f ∈ fs, f.Plain) (hlen : ∀ f ∈ fs, f.write.length < 2 ^ 64)
    (hchild : ∀ f ∈ fs, kind.child f.tag = none) :
    CountsFields kind fs 0 := by
  induction fs with
  | nil => exact nil
  | cons f fs ih =>
    have hrest := ih (forall_mem_cons.mp hplain).2 (forall_mem_cons.mp hlen).2
      (forall_mem_cons.mp hchild).2
    exact (leaf (hplain f mem_cons_self) (hlen f mem_cons_self)
      (hchild f mem_cons_self)).append hrest

theorem repeated {α : Type} {M : Message α} {tag : ℕ} {child : WireKind} {xs : List α}
    (count : α → ℕ) (hchild : kind.child tag = some child)
    (hplain : ∀ f ∈ Wire.repeated tag M xs, f.Plain)
    (hlen : ∀ f ∈ Wire.repeated tag M xs, f.write.length < 2 ^ 64)
    (hcount : ∀ x ∈ xs, Counts child (M.encode x) (count x)) :
    CountsFields kind (Wire.repeated tag M xs) (xs.map fun x => 1 + count x).sum := by
  induction xs with
  | nil => exact nil
  | cons x xs ih =>
    have hrest := ih (forall_mem_cons.mp hplain).2 (forall_mem_cons.mp hlen).2
      (forall_mem_cons.mp hcount).2
    exact (sub (hplain _ mem_cons_self) (hlen _ mem_cons_self) hchild
      (hcount x mem_cons_self)).append hrest

theorem counts (h : CountsFields kind fs n) : Counts kind (writeFields fs) n := by
  have := h [] 0 (counts_nil kind)
  rw [append_nil] at this
  exact this

end CountsFields

theorem length_write_le {fs : List Field} {f : Field} (hf : f ∈ fs) :
    f.write.length ≤ (writeFields fs).length := by
  obtain ⟨before, after, rfl⟩ := append_of_mem hf
  simp only [writeFields, flatMap_append, flatMap_cons, length_append]
  omega

namespace Proto

def slotMessages {α : Type} (count : α → ℕ) (x : Option α) : ℕ := (x.map fun a => 1 + count a).getD 0

def AccessTuple.messages (a : AccessTuple) : ℕ := a.storageKey.length

def AccessList.messages (l : AccessList) : ℕ := (l.accessTuples.map fun a => 1 + a.messages).sum

def OutPoint.messages (o : OutPoint) : ℕ := slotMessages (fun _ => 0) o.hash

def Input.messages (i : Input) : ℕ := slotMessages OutPoint.messages i.previousOutPoint

def Inputs.messages (l : Inputs) : ℕ := (l.txIns.map fun i => 1 + i.messages).sum

def Outputs.messages (l : Outputs) : ℕ := l.txOuts.length

def Transaction.messages (t : Transaction) : ℕ :=
  slotMessages AccessList.messages t.accessList + slotMessages (fun _ => 0) t.originatingTxHash +
    slotMessages Inputs.messages t.txIns + slotMessages Outputs.messages t.txOuts +
    slotMessages (fun _ => 0) t.parentHash + slotMessages (fun _ => 0) t.mixHash

end Proto

/-- How a group of fields with one tag is charged, once its fields are known to be readable. -/
def GroupCost (kind : WireKind) (g : List Field) (n : ℕ) : Prop :=
  (∀ f ∈ g, f.Plain) → (∀ f ∈ g, f.write.length < 2 ^ 64) → CountsFields kind g n

variable {kind : WireKind} {tag : ℕ} {b : Bytes} {p : Proto.Transaction}

theorem groupCost_leaf {x : Option Value} (hchild : kind.child tag = none) :
    GroupCost kind (optional tag x) 0 := by
  intro hplain hlen
  refine CountsFields.leaves hplain hlen fun f hf => ?_
  obtain ⟨v, -, rfl⟩ := mem_map.mp hf
  exact hchild

theorem groupCost_sub {α : Type} {M : Message α} {child : WireKind} {x : Option α} (count : α → ℕ)
    (hchild : kind.child tag = some child)
    (hcount : ∀ a, (M.encode a).length < 2 ^ 64 → Counts child (M.encode a) (count a)) :
    GroupCost kind (optional tag (x.map fun a => .bytes (M.encode a))) (slotMessages count x) := by
  intro hplain hlen
  cases x with
  | none => exact CountsFields.nil
  | some a =>
    have hf : (⟨tag, .bytes (M.encode a)⟩ : Field) ∈
        optional tag ((some a).map fun a => .bytes (M.encode a)) := mem_singleton_self _
    have hpart : (M.encode a).length < 2 ^ 64 :=
      lt_of_le_of_lt (by simp [Field.write, Value.write]; omega) (hlen _ hf)
    exact CountsFields.sub (hplain _ hf) (hlen _ hf) hchild (hcount a hpart)

theorem groupCost_implicitBytes (hchild : kind.child tag = none) :
    GroupCost kind (implicitBytes tag b) 0 := by
  intro hplain hlen
  refine CountsFields.leaves hplain hlen fun f hf => ?_
  unfold implicitBytes unlessEmpty at hf
  split at hf
  · cases hf
  · rw [mem_singleton.mp hf]
    exact hchild

theorem groupCost_repeated {α : Type} {M : Message α} {child : WireKind} {xs : List α}
    (count : α → ℕ) (hchild : kind.child tag = some child)
    (hcount : ∀ a, (M.encode a).length < 2 ^ 64 → Counts child (M.encode a) (count a)) :
    GroupCost kind (repeated tag M xs) (xs.map fun x => 1 + count x).sum := by
  intro hplain hlen
  refine CountsFields.repeated count hchild hplain hlen fun x hx => hcount x ?_
  have hf : (⟨tag, .bytes (M.encode x)⟩ : Field) ∈ repeated tag M xs := mem_map_of_mem hx
  exact lt_of_le_of_lt (by simp [Field.write, Value.write]; omega) (hlen _ hf)

theorem counts_flatten {groups : List (List Field)} {costs : List ℕ}
    (hplain : ∀ f ∈ groups.flatten, f.Plain) (hlen : (writeFields groups.flatten).length < 2 ^ 64)
    (h : List.Forall₂ (GroupCost kind) groups costs) :
    Counts kind (writeFields groups.flatten) costs.sum := by
  have hshort : ∀ f ∈ groups.flatten, f.write.length < 2 ^ 64 := fun f hf =>
    lt_of_le_of_lt (length_write_le hf) hlen
  clear hlen
  refine CountsFields.counts ?_
  induction h with
  | nil => exact CountsFields.nil
  | cons hg _ ih =>
    simp only [flatten_cons, mem_append] at hplain hshort
    exact (hg (fun f hf => hplain f (.inl hf)) fun f hf => hshort f (.inl hf)).append
      (ih (fun f hf => hplain f (.inr hf)) fun f hf => hshort f (.inr hf))

theorem counts_group {g : List Field} {n : ℕ} (hplain : ∀ f ∈ g, f.Plain)
    (hlen : (writeFields g).length < 2 ^ 64) (h : GroupCost kind g n) :
    Counts kind (writeFields g) n :=
  (h hplain fun _ hf => lt_of_le_of_lt (length_write_le hf) hlen).counts

theorem counts_hash (h : Proto.Hash) (hlen : (hash.encode h).length < 2 ^ 64) :
    Counts .hash (hash.encode h) 0 :=
  counts_group (hash_roundTrips.plain h) hlen (groupCost_implicitBytes rfl)

theorem counts_accessTuple (a : Proto.AccessTuple) (hlen : (accessTuple.encode a).length < 2 ^ 64) :
    Counts .accessTuple (accessTuple.encode a) a.messages := by
  have hsum : a.messages = [0, (a.storageKey.map fun _ => 1 + 0).sum].sum := by
    simp [Proto.AccessTuple.messages]
  rw [hsum]
  exact counts_flatten (accessTuple_roundTrips.plain a) hlen (.cons (groupCost_implicitBytes rfl)
      (.cons (groupCost_repeated (fun _ => 0) rfl counts_hash) .nil))

theorem counts_accessList (l : Proto.AccessList) (hlen : (accessList.encode l).length < 2 ^ 64) :
    Counts .accessList (accessList.encode l) l.messages :=
  counts_group (accessList_roundTrips.plain l) hlen
    (groupCost_repeated Proto.AccessTuple.messages rfl counts_accessTuple)

theorem counts_outPoint (o : Proto.OutPoint) (hlen : (outPoint.encode o).length < 2 ^ 64) :
    Counts .outPoint (outPoint.encode o) o.messages :=
  counts_flatten (outPoint_roundTrips.plain o) hlen
    (.cons (groupCost_sub (fun _ => 0) rfl counts_hash) (.cons (groupCost_leaf rfl) .nil))

theorem counts_input (i : Proto.Input) (hlen : (input.encode i).length < 2 ^ 64) :
    Counts .input (input.encode i) i.messages :=
  counts_flatten (input_roundTrips.plain i) hlen
    (.cons (groupCost_sub Proto.OutPoint.messages rfl counts_outPoint)
      (.cons (groupCost_leaf rfl) .nil))

theorem counts_inputs (l : Proto.Inputs) (hlen : (inputs.encode l).length < 2 ^ 64) :
    Counts .inputs (inputs.encode l) l.messages :=
  counts_group (inputs_roundTrips.plain l) hlen
    (groupCost_repeated Proto.Input.messages rfl counts_input)

theorem counts_output (o : Proto.Output) (hlen : (output.encode o).length < 2 ^ 64) :
    Counts .output (output.encode o) 0 :=
  counts_flatten (output_roundTrips.plain o) hlen
    (.cons (groupCost_leaf rfl) (.cons (groupCost_leaf rfl) (.cons (groupCost_leaf rfl) .nil)))

theorem counts_outputs (l : Proto.Outputs) (hlen : (outputs.encode l).length < 2 ^ 64) :
    Counts .outputs (outputs.encode l) l.messages := by
  have hsum : l.messages = (l.txOuts.map fun _ => 1 + 0).sum := by simp [Proto.Outputs.messages]
  rw [hsum]
  exact counts_group (outputs_roundTrips.plain l) hlen
    (groupCost_repeated (fun _ => 0) rfl counts_output)

section

variable (t : Proto.Transaction) (hlen : (transaction.encode t).length < 2 ^ 64)
include hlen

theorem counts_transaction : Counts .transaction (transaction.encode t) t.messages := by
  have hgroups : List.Forall₂ (GroupCost .transaction) (transactionGroups t)
      [0, 0, 0, 0, 0, 0, 0, 0, slotMessages Proto.AccessList.messages t.accessList, 0, 0, 0,
        slotMessages (fun _ => 0) t.originatingTxHash, 0,
        slotMessages Proto.Inputs.messages t.txIns,
        slotMessages Proto.Outputs.messages t.txOuts, 0, 0,
        slotMessages (fun _ => 0) t.parentHash, slotMessages (fun _ => 0) t.mixHash,
        0, 0] := by
    simp only [transactionGroups, forall₂_cons]
    exact ⟨groupCost_leaf rfl, groupCost_leaf rfl, groupCost_leaf rfl, groupCost_leaf rfl,
      groupCost_leaf rfl, groupCost_leaf rfl, groupCost_leaf rfl, groupCost_leaf rfl,
      groupCost_sub _ rfl counts_accessList, groupCost_leaf rfl, groupCost_leaf rfl,
      groupCost_leaf rfl, groupCost_sub _ rfl counts_hash, groupCost_leaf rfl,
      groupCost_sub _ rfl counts_inputs, groupCost_sub _ rfl counts_outputs, groupCost_leaf rfl,
      groupCost_leaf rfl, groupCost_sub _ rfl counts_hash, groupCost_sub _ rfl counts_hash,
      groupCost_leaf rfl, groupCost_leaf rfl, .nil⟩
  have h := counts_flatten (transaction_roundTrips.plain t) hlen hgroups
  simp only [sum_cons, sum_nil, Nat.zero_add, Nat.add_zero, ← Nat.add_assoc] at h
  exact h

/-- The budget `preflight` takes for an encoded transaction. -/
theorem preflight_encode (budget : ℕ) :
    preflight (transaction.encode t) .transaction budget = charge (1 + t.messages) budget := by
  rw [← charge_bind, ← takeMessage_eq]
  unfold preflight
  congr 1
  funext b
  exact counts_transaction t hlen _ b le_rfl

end

theorem encode_eq_ok (h : encode p = .ok b) :
    b = transaction.encode p ∧ b.length ≤ maxTransactionBytes := by
  rw [encode, ite_error_eq_ok] at h
  obtain ⟨hlen, hb⟩ := h
  cases hb
  exact ⟨rfl, not_lt.mp hlen⟩

theorem maxTransactionBytes_lt : maxTransactionBytes < 2 ^ 64 := by decide

/-- `decode` reads back whatever `encode` wrote within the message bound. -/
theorem decode_of_encode (h : encode p = .ok b)
    (hmessages : 1 + p.messages ≤ maxTransactionMessages) : decode b = .ok p := by
  obtain ⟨rfl, hlen⟩ := encode_eq_ok h
  have hshort := lt_of_le_of_lt hlen maxTransactionBytes_lt
  have hcharge : charge (1 + p.messages) maxTransactionMessages =
      .ok (maxTransactionMessages - (1 + p.messages)) := if_pos hmessages
  rw [decode, if_neg (not_lt.mpr hlen), preflight_encode p hshort, hcharge, ok_bind,
    transaction_roundTrips.decode_encode hshort, okOr_some, ok_bind, if_neg (not_not.mpr rfl)]

theorem encode_of_decode (h : decode b = .ok p) : encode p = .ok b := by
  simp only [decode, eq_ok, not_not] at h
  obtain ⟨hlen, -, -, q, -, hq, hp⟩ := h
  cases hp
  rw [encode, hq, if_neg hlen]

end QuaiSdk
