import Mathlib.Tactic.FinCases
import QuaiSdk.Provider.TrieComplete

/-!
# What the builder builds

The builder splits sorted paths by the nibbles they share.  Each call makes a leaf, an extension to a
branch, or a branch; by induction over the calls every node is one that the verifier walks, and the
trie holds the entries it was built from.
-/

namespace QuaiSdk.Provider

open Result BigEndian Hash32 List

namespace TestTrie

variable {keccak256 : Bytes → Hash32}

theorem take_sharedLength (a b : Bytes) : a.take (sharedLength a b) = b.take (sharedLength a b) := by
  induction a generalizing b with
  | nil => cases b <;> rfl
  | cons x a ih =>
    cases b with
    | nil => rfl
    | cons y b =>
      rw [sharedLength]
      split
      · rename_i hxy
        rw [take_succ_cons, take_succ_cons, hxy, ih b]
      · rfl

theorem sharedLength_le (a b : Bytes) : sharedLength a b ≤ a.length := by
  induction a generalizing b with
  | nil => cases b <;> exact le_rfl
  | cons x a ih =>
    cases b with
    | nil => exact Nat.zero_le _
    | cons y b =>
      rw [sharedLength]
      split
      · exact Nat.succ_le_succ (ih b)
      · exact Nat.zero_le _

theorem sharedLength_drop (a b : Bytes) :
    sharedLength (a.drop (sharedLength a b)) (b.drop (sharedLength a b)) = 0 := by
  induction a generalizing b with
  | nil => cases b <;> rfl
  | cons x a ih =>
    cases b with
    | nil => rfl
    | cons y b =>
      by_cases hxy : x = y
      · rw [sharedLength, if_pos hxy, drop_succ_cons, drop_succ_cons]
        exact ih b
      · rw [sharedLength, if_neg hxy, drop_zero, drop_zero, sharedLength, if_neg hxy]

/-- What every call of the builder is given. -/
structure Group (items : List (Bytes × Bytes)) (depth : ℕ) : Prop where
  nonempty : items ≠ []
  shallow : depth ≤ 64
  length : ∀ item ∈ items, item.1.length = 64
  nibble : ∀ item ∈ items, ∀ x ∈ item.1, x < 16
  agree : ∀ a ∈ items, ∀ b ∈ items, a.1.take depth = b.1.take depth
  sorted : items.Pairwise fun a b => value a.1 < value b.1

def groupOf (items : List (Bytes × Bytes)) (depth : ℕ) (nibble : Fin 16) : List (Bytes × Bytes) :=
  items.filter fun item => (item.1.getD depth 0).toNat = nibble.val

inductive Call (items : List (Bytes × Bytes)) (depth : ℕ) : Prop where
  | single (path value : Bytes) (h : items = [(path, value)])
  | shared (front : Bytes) (hne : front ≠ []) (hnibble : ∀ x ∈ front, x < 16)
      (hfront : ∀ item ∈ items, item.1.take (depth + front.length) = item.1.take depth ++ front)
      (hgroup : Group items (depth + front.length))
      (hbuild : ∀ fuel, build (fuel + 1) items depth =
        .extension front (build fuel items (depth + front.length)))
      (hbranch : ∀ fuel, ∃ children, build (fuel + 1) items (depth + front.length) =
        .branch children)
  | split (hdepth : depth < 64)
      (hbuild : ∀ fuel, build (fuel + 1) items depth = .branch fun nibble =>
        if groupOf items depth nibble = [] then none
        else some (build fuel (groupOf items depth nibble) (depth + 1)))

variable {items : List (Bytes × Bytes)} {depth : ℕ} {path : Bytes}

theorem build_many (hmany : 2 ≤ items.length) (fuel depth : ℕ) : build (fuel + 1) items depth =
      let first := (items.headD ([], [])).1
      let last := (items.getLastD ([], [])).1
      let shared := sharedLength (first.drop depth) (last.drop depth)
      if 0 < shared then
        .extension ((first.drop depth).take shared) (build fuel items (depth + shared))
      else .branch fun nibble =>
        if groupOf items depth nibble = [] then none
        else some (build fuel (groupOf items depth nibble) (depth + 1)) := by
  cases items with
  | nil => cases hmany
  | cons a items =>
    cases items with
    | nil => exact absurd hmany (by simp)
    | cons => rfl

theorem Group.ends (h : Group items depth) (hmany : 2 ≤ items.length) :
    items.headD ([], []) ∈ items ∧ items.getLastD ([], []) ∈ items ∧
      value (items.headD ([], [])).1 < value (items.getLastD ([], [])).1 ∧
      ∀ item ∈ items, value (items.headD ([], [])).1 ≤ value item.1 ∧
        value item.1 ≤ value (items.getLastD ([], [])).1 := by
  have hsorted := h.sorted
  cases items with
  | nil => cases hmany
  | cons a items =>
    have hne : items ≠ [] := by
      intro hnil
      rw [hnil] at hmany
      exact absurd hmany (by simp)
    have hlast : (a :: items).getLastD ([], []) = items.getLast hne := by
      rw [getLastD_eq_getLast?, getLast?_eq_getLast_of_ne_nil (cons_ne_nil a items),
        getLast_cons hne]
      rfl
    rw [pairwise_cons] at hsorted
    have hle : ∀ item ∈ items, value item.1 ≤ value (items.getLast hne).1 := by
      intro item hitem
      rw [← dropLast_append_getLast hne] at hitem
      have hpair := hsorted.2
      rw [← dropLast_append_getLast hne, pairwise_append] at hpair
      rcases mem_append.mp hitem with hitem | hitem
      · exact (hpair.2.2 item hitem _ mem_cons_self).le
      · rw [mem_singleton.mp hitem]
    have hlt := hsorted.1 _ (getLast_mem hne)
    rw [hlast]
    refine ⟨mem_cons_self, mem_cons_of_mem _ (getLast_mem hne), hlt, ?_⟩
    exact forall_mem_cons.mpr ⟨⟨le_rfl, hlt.le⟩,
      fun item hitem => ⟨(hsorted.1 item hitem).le, hle item hitem⟩⟩

theorem Group.deeper (h : Group items depth) {first last : Bytes × Bytes} (hfirst : first ∈ items)
    (hlast : last ∈ items)
    (hbetween : ∀ item ∈ items, value first.1 ≤ value item.1 ∧ value item.1 ≤ value last.1)
    {deep : ℕ} (hdeep : deep ≤ 64) (hshared : first.1.take deep = last.1.take deep) :
    Group items deep := by
  have hall : ∀ item ∈ items, item.1.take deep = first.1.take deep := by
    intro item hitem
    apply take_eq_of_between _ _ (hbetween item hitem).1 (hbetween item hitem).2 hshared
    · rw [h.length _ hfirst, h.length _ hitem]
    · rw [h.length _ hitem, h.length _ hlast]
  exact ⟨h.nonempty, hdeep, h.length, h.nibble,
    fun a ha b hb => (hall a ha).trans (hall b hb).symm, h.sorted⟩

theorem Group.call (h : Group items depth) : Call items depth := by
  by_cases hmany : 2 ≤ items.length
  · obtain ⟨hfirst, hlast, hlt, hbetween⟩ := h.ends hmany
    have hbuild := build_many hmany
    generalize items.headD ([], []) = first at hfirst hlt hbetween hbuild
    generalize items.getLastD ([], []) = last at hlast hlt hbetween hbuild
    have htake := take_sharedLength (first.1.drop depth) (last.1.drop depth)
    have hle := sharedLength_le (first.1.drop depth) (last.1.drop depth)
    have hdrop := sharedLength_drop (first.1.drop depth) (last.1.drop depth)
    have hfirstLength := h.length _ hfirst
    dsimp only at hbuild
    by_cases hshared : 0 < sharedLength (first.1.drop depth) (last.1.drop depth)
    · have hcall : ∀ fuel, build (fuel + 1) items depth =
          .extension ((first.1.drop depth).take (sharedLength (first.1.drop depth) (last.1.drop depth)))
            (build fuel items (depth + sharedLength (first.1.drop depth) (last.1.drop depth))) := by
        intro fuel
        rw [hbuild, if_pos hshared]
      rw [drop_drop, drop_drop] at hdrop
      generalize sharedLength (first.1.drop depth) (last.1.drop depth) = shared at *
      have hfront : ((first.1.drop depth).take shared).length = shared := length_take_of_le hle
      have hends : first.1.take (depth + shared) = last.1.take (depth + shared) := by
        rw [take_add, take_add, h.agree _ hfirst _ hlast, htake]
      rw [length_drop] at hle
      have hgroup : Group items (depth + shared) := h.deeper hfirst hlast hbetween (by omega) hends
      apply Call.shared ((first.1.drop depth).take shared)
      · exact ne_nil_of_length_pos (by omega)
      · exact fun x hx => h.nibble _ hfirst x (mem_of_mem_drop (mem_of_mem_take hx))
      · intro item hitem
        rw [hfront, hgroup.agree _ hitem _ hfirst, take_add, h.agree _ hfirst _ hitem]
      · rw [hfront]
        exact hgroup
      · rw [hfront]
        exact hcall
      · intro fuel
        rw [hfront, hbuild, hdrop]
        exact ⟨_, rfl⟩
    · apply Call.split
      · -- entries that agree everywhere would be one
        by_contra hdeep
        have hsame := h.agree _ hfirst _ hlast
        rw [take_of_length_le (by omega),
          take_of_length_le (by rw [h.length _ hlast]; omega)] at hsame
        rw [hsame] at hlt
        exact lt_irrefl _ hlt
      · intro fuel
        rw [hbuild, if_neg hshared]
  · have hpos := length_pos_iff.mpr h.nonempty
    obtain ⟨⟨path, value⟩, hsingle⟩ := length_eq_one_iff.mp (show items.length = 1 by omega)
    exact .single path value hsingle

theorem mem_groupOf {nibble : Fin 16} {item : Bytes × Bytes} : item ∈ groupOf items depth nibble ↔
      item ∈ items ∧ (item.1.getD depth 0).toNat = nibble.val := by
  rw [groupOf, mem_filter, decide_eq_true_iff]

theorem take_succ_eq (h : depth < path.length) :
    path.take (depth + 1) = path.take depth ++ [path.getD depth 0] := by
  rw [take_succ_eq_append_getElem h, getD_eq_getElem?_getD, getElem?_eq_getElem h]
  rfl

theorem Group.under (h : Group items depth) (hdepth : depth < 64) {nibble : Fin 16}
    (hne : groupOf items depth nibble ≠ []) :
    Group (groupOf items depth nibble) (depth + 1) := by
  refine ⟨hne, hdepth, ?_, ?_, ?_, h.sorted.sublist filter_sublist⟩
  · exact fun item hitem => h.length item (mem_groupOf.mp hitem).1
  · exact fun item hitem => h.nibble item (mem_groupOf.mp hitem).1
  · intro a ha b hb
    obtain ⟨ha, hanibble⟩ := mem_groupOf.mp ha
    obtain ⟨hb, hbnibble⟩ := mem_groupOf.mp hb
    rw [take_succ_eq (by rw [h.length a ha]; exact hdepth),
      take_succ_eq (by rw [h.length b hb]; exact hdepth), h.agree a ha b hb,
      UInt8.toNat_inj.mp (hanibble.trans hbnibble.symm)]

inductive PartOf : Node → Node → Prop where
  | self (node : Node) : PartOf node node
  | extension {part child : Node} (path : Bytes) (h : PartOf part child) :
      PartOf part (.extension path child)
  | branch {part child : Node} {children : Fin 16 → Option Node} (nibble : Fin 16)
      (hchild : children nibble = some child) (h : PartOf part child) :
      PartOf part (.branch children)

/-- Every call builds a node that the verifier walks, if the nodes are within its bound. -/
theorem Group.sound {fuel : ℕ} (h : Group items depth) (hfuel : 65 ≤ fuel + depth)
    (hsize : ∀ part, PartOf part (build fuel items depth) →
      (encode keccak256 part).length ≤ maxProofNodeBytes) :
    Sound keccak256 (64 - depth) (build fuel items depth) := by
  induction fuel generalizing items depth with
  | zero => exact absurd h.shallow (by omega)
  | succ fuel ih =>
    have hself := hsize _ (.self _)
    cases h.call with
    | single path value hsingle =>
      subst hsingle
      have hpath : (path.drop depth).length = 64 - depth := by
        rw [length_drop, h.length _ mem_cons_self]
      rw [← hpath]
      apply Sound.leaf _ _ _ hself
      exact fun x hx => h.nibble _ mem_cons_self x (mem_of_mem_drop hx)
    | shared front hne hnibble hfront hgroup hbuild hbranch =>
      have hpos := length_pos_iff.mpr hne
      have hdeep := hgroup.shallow
      obtain ⟨fuel, rfl⟩ : ∃ k, fuel = k + 1 := ⟨fuel - 1, by omega⟩
      obtain ⟨children, hchildren⟩ := hbranch fuel
      rw [hbuild, hchildren] at hsize hself ⊢
      have hchild : Sound keccak256 (64 - (depth + front.length)) (.branch children) := by
        rw [← hchildren]
        apply ih hgroup (by omega)
        rw [hchildren]
        exact fun part hpart => hsize part (.extension front hpart)
      have hremain : 64 - depth = front.length + (64 - (depth + front.length)) := by omega
      rw [hremain]
      exact .extension _ front children hnibble hne hself hchild
    | split hdepth hbuild =>
      rw [hbuild] at hsize hself ⊢
      have hremain : 64 - depth = (64 - (depth + 1)) + 1 := by omega
      rw [hremain]
      apply Sound.branch _ _ hself
      intro nibble node hnode
      have hnode' := hnode
      split at hnode'
      · cases hnode'
      · rename_i hne
        cases hnode'
        apply ih (h.under hdepth hne) (by omega)
        exact fun part hpart => hsize part (.branch nibble hnode hpart)

/-- Every call builds a trie that holds exactly its entries. -/
theorem Group.find_build {items : List (Bytes × Bytes)} {depth fuel : ℕ} (h : Group items depth)
    (hfuel : 65 ≤ fuel + depth) {path : Bytes} (hlength : path.length = 64)
    (hnibbles : ∀ x ∈ path, x < 16) (hpath : ∀ item ∈ items, item.1.take depth = path.take depth)
    (value : Bytes) :
    find (build fuel items depth) (path.drop depth) = some value ↔ (path, value) ∈ items := by
  induction fuel generalizing items depth with
  | zero => exact absurd h.shallow (by omega)
  | succ fuel ih =>
    cases h.call with
    | single path' value' hsingle =>
      subst hsingle
      have htake := hpath _ mem_cons_self
      have hsame : path'.drop depth = path.drop depth ↔ path = path' := by
        constructor
        · intro hdrop
          rw [← take_append_drop depth path, ← take_append_drop depth path', hdrop, htake]
        · rintro rfl
          rfl
      show find (.leaf (path'.drop depth) value') (path.drop depth) = some value ↔ _
      rw [find]
      simp only [hsame, mem_singleton, Prod.mk.injEq]
      by_cases hp : path = path'
      · simp [hp, eq_comm]
      · simp [hp]
    | shared front hne hnibble hfront hgroup hbuild hbranch =>
      rw [hbuild, find]
      by_cases hpart : front <+: path.drop depth
      · rw [if_pos hpart, drop_drop]
        apply ih hgroup (by have := length_pos_iff.mpr hne; omega)
        intro item hitem
        rw [hfront item hitem, take_add, hpath item hitem, prefix_iff_eq_take.mp hpart]
        simp
      · rw [if_neg hpart]
        constructor
        · intro h
          cases h
        · intro hitem
          have hmem := hfront _ hitem
          rw [take_add] at hmem
          have := append_cancel_left hmem
          exact (hpart ⟨_, by rw [← this]; exact take_append_drop _ _⟩).elim
    | split hdepth hbuild =>
      have hin : depth < path.length := by omega
      have hnibble : (path.getD depth 0).toNat < 16 := by
        show (path.getD depth 0).toNat < (16 : UInt8).toNat
        apply UInt8.lt_iff_toNat_lt.mp
        apply hnibbles
        rw [getD_eq_getElem?_getD, getElem?_eq_getElem hin]
        exact getElem_mem hin
      have hdrop : path.drop depth = path.getD depth 0 :: path.drop (depth + 1) := by
        rw [drop_eq_getElem_cons hin, getD_eq_getElem?_getD, getElem?_eq_getElem hin]
        rfl
      have hindex : (firstNibble (path.drop depth)).val = (path.getD depth 0).toNat := by
        rw [hdrop]
        exact Nat.mod_eq_of_lt hnibble
      have hmem : (path, value) ∈ groupOf items depth (firstNibble (path.drop depth)) ↔
          (path, value) ∈ items := by
        rw [mem_groupOf, hindex]
        exact and_iff_left rfl
      rw [hbuild, find, ← hmem]
      generalize hnibble' : firstNibble (path.drop depth) = nibble at hindex
      by_cases hempty : groupOf items depth nibble = []
      · rw [if_pos hempty, findChild, hempty]
        simp
      · rw [if_neg hempty, findChild, tail_drop]
        apply ih (h.under hdepth hempty) (by omega)
        intro item hitem
        obtain ⟨hitem, hsame⟩ := mem_groupOf.mp hitem
        rw [take_succ_eq (by rw [h.length item hitem]; exact hdepth), take_succ_eq hin,
          hpath item hitem, UInt8.toNat_inj.mp (hsame.trans hindex)]

theorem pack_nibbles (b : Bytes) : pack (nibbles b) = b := by
  have hbyte : ∀ i : Fin 256, ((UInt8.ofNat i >>> 4) <<< 4 ||| (UInt8.ofNat i &&& 0x0f)) =
      UInt8.ofNat i := by decide +kernel
  induction b with
  | nil => rfl
  | cons x b ih =>
    have hx := hbyte ⟨x.toNat, x.toNat_lt⟩
    rw [UInt8.ofNat_toNat] at hx
    show ((x >>> 4) <<< 4 ||| (x &&& 0x0f)) :: pack (nibbles b) = _
    rw [hx, ih]

theorem nibbles_injective {key key' : Hash32} (h : nibbles key.bytes = nibbles key'.bytes) :
    key = key' :=
  Hash32.ext (by rw [← pack_nibbles key.bytes, ← pack_nibbles key'.bytes, h])

def latest (entries : List (Hash32 × Bytes)) (key : Hash32) : Option Bytes :=
  (entries.reverse.find? fun entry => entry.1 = key).map Prod.snd

theorem latest_concat (entries : List (Hash32 × Bytes)) (entry : Hash32 × Bytes) (key : Hash32) :
    latest (entries ++ [entry]) key = if entry.1 = key then some entry.2 else latest entries key := by
  rw [latest, reverse_append, reverse_singleton, singleton_append, find?_cons]
  by_cases h : entry.1 = key
  · simp [h]
  · simp [h, latest]

theorem mem_insertEntry {entry : Hash32 × Bytes} {value : Bytes} :
    (path, value) ∈ insertEntry items entry ↔
      if nibbles entry.1.bytes = path then entry.2 = value else (path, value) ∈ items := by
  unfold insertEntry
  by_cases hmem : nibbles entry.1.bytes ∈ items.map Prod.fst
  · obtain ⟨old, hold, hsame⟩ := mem_map.mp hmem
    rw [if_pos hmem, mem_map]
    by_cases hpath : nibbles entry.1.bytes = path
    · rw [if_pos hpath]
      constructor
      · rintro ⟨item, -, h⟩
        split at h
        · exact congrArg Prod.snd h
        · rename_i hother
          exact (hother (by rw [h, hpath])).elim
      · rintro rfl
        exact ⟨old, hold, by rw [if_pos hsame, hpath]⟩
    · rw [if_neg hpath]
      constructor
      · rintro ⟨item, hitem, h⟩
        split at h
        · exact (hpath (congrArg Prod.fst h)).elim
        · rw [← h]
          exact hitem
      · intro hitem
        exact ⟨(path, value), hitem, if_neg (Ne.symm hpath)⟩
  · rw [if_neg hmem, mem_append, mem_singleton, Prod.mk.injEq]
    by_cases hpath : nibbles entry.1.bytes = path
    · have hnot : (path, value) ∉ items := by
        intro hitem
        rw [hpath] at hmem
        exact hmem (mem_map_of_mem hitem)
      simp [hnot, hpath, eq_comm]
    · rw [if_neg hpath]
      simp [Ne.symm hpath]

theorem paths_insertEntry (items : List (Bytes × Bytes)) (entry : Hash32 × Bytes) :
    (insertEntry items entry).map Prod.fst =
      if nibbles entry.1.bytes ∈ items.map Prod.fst then items.map Prod.fst
      else items.map Prod.fst ++ [nibbles entry.1.bytes] := by
  unfold insertEntry
  by_cases hmem : nibbles entry.1.bytes ∈ items.map Prod.fst
  · rw [if_pos hmem, if_pos hmem, map_map]
    apply map_congr_left
    intro item _
    rw [Function.comp_apply]
    split
    · rename_i hsame
      exact hsame.symm
    · rfl
  · rw [if_neg hmem, if_neg hmem, map_append]
    rfl

theorem collected (entries : List (Hash32 × Bytes)) :
    ((entries.foldl insertEntry []).map Prod.fst).Nodup ∧
    (∀ item ∈ entries.foldl insertEntry [], ∃ key : Hash32, item.1 = nibbles key.bytes) ∧
    ∀ key value, (nibbles key.bytes, value) ∈ entries.foldl insertEntry [] ↔
      latest entries key = some value := by
  induction entries using reverseRecOn with
  | nil => exact ⟨nodup_nil, by simp, by simp [latest]⟩
  | append_singleton entries entry ih =>
    obtain ⟨hnodup, hpaths, hlatest⟩ := ih
    rw [foldl_append, foldl_cons, foldl_nil]
    refine ⟨?_, ?_, ?_⟩
    · rw [paths_insertEntry]
      split
      · exact hnodup
      · rename_i hnew
        rw [← concat_eq_append]
        exact hnodup.concat hnew
    · rintro ⟨path, value⟩ hitem
      rw [mem_insertEntry] at hitem
      split at hitem
      · rename_i hpath
        exact ⟨entry.1, hpath.symm⟩
      · exact hpaths _ hitem
    · intro key value
      rw [mem_insertEntry, latest_concat]
      by_cases hkey : entry.1 = key
      · rw [if_pos (by rw [hkey]), if_pos hkey, Option.some.injEq]
      · rw [if_neg (fun h => hkey (nibbles_injective h)), if_neg hkey]
        exact hlatest key value

theorem group_sorted (hne : items ≠ []) (hnodup : (items.map Prod.fst).Nodup)
    (hpaths : ∀ item ∈ items, ∃ key : Hash32, item.1 = nibbles key.bytes) :
    Group (items.insertionSort fun a b => value a.1 ≤ value b.1) 0 := by
  have hperm := items.perm_insertionSort fun a b => value a.1 ≤ value b.1
  have hlength : ∀ item ∈ items, item.1.length = 64 := by
    intro item hitem
    obtain ⟨key, hkey⟩ := hpaths item hitem
    rw [hkey, length_nibbles, key.size]
  refine ⟨?_, Nat.zero_le _, ?_, ?_, fun _ _ _ _ => rfl, ?_⟩
  · intro hnil
    rw [hnil] at hperm
    exact hne hperm.nil_eq.symm
  · exact fun item hitem => hlength item (hperm.mem_iff.mp hitem)
  · intro item hitem
    obtain ⟨key, hkey⟩ := hpaths item (hperm.mem_iff.mp hitem)
    rw [hkey]
    exact nibbles_lt _
  · have htotal : Std.Total fun a b : Bytes × Bytes =>
        value a.1 ≤ value b.1 := ⟨fun a b => le_total _ _⟩
    have htrans : IsTrans (Bytes × Bytes) fun a b =>
        value a.1 ≤ value b.1 := ⟨fun a b c => le_trans⟩
    have hsorted := items.pairwise_insertionSort fun a b => value a.1 ≤ value b.1
    have hdistinct : ((items.insertionSort fun a b =>
        value a.1 ≤ value b.1).map Prod.fst).Nodup :=
      (hperm.map Prod.fst).nodup_iff.mpr hnodup
    have hne := pairwise_map.mp hdistinct
    apply (hsorted.and hne).imp_of_mem
    rintro a b ha hb ⟨hle, hdiffer⟩
    apply lt_of_le_of_ne hle
    intro heq
    apply hdiffer
    apply eq_of_value_eq _ heq
    rw [hlength a (hperm.mem_iff.mp ha), hlength b (hperm.mem_iff.mp hb)]

/-- Honest proofs are accepted: for every list of entries whose trie has no node beyond the
verifier's bound, the proof that the trie gives for a path proves what the entries say about it.
Such a proof is within the number of nodes, and each of its nodes within the nesting. -/
theorem honest_proofs_accepted (keccak256 : Bytes → Hash32) (entries : List (Hash32 × Bytes))
    (hsize : ∀ root node, fromPaths entries = some root → PartOf node root →
      (encode keccak256 node).length ≤ maxProofNodeBytes) (key : Hash32) :
    walk keccak256 (rootHash keccak256 (fromPaths entries)) key
        (prove keccak256 (fromPaths entries) key) = .ok (latest entries key) ∧
      (prove keccak256 (fromPaths entries) key).length ≤ maxProofNodes ∧
      ∀ node ∈ prove keccak256 (fromPaths entries) key, ∃ item, Rlp.decode node = .ok item := by
  obtain ⟨hnodup, hpaths, hlatest⟩ := collected entries
  unfold fromPaths at hsize ⊢
  generalize entries.foldl insertEntry [] = items at *
  by_cases hempty : items = []
  · have hnone : latest entries key = none := by
      rw [Option.eq_none_iff_forall_ne_some]
      intro value hvalue
      have hmem := (hlatest key value).mpr hvalue
      rw [hempty] at hmem
      cases hmem
    rw [if_pos hempty, hnone]
    refine ⟨rfl, Nat.zero_le _, ?_⟩
    intro node hnode
    cases hnode
  · rw [if_neg hempty] at hsize ⊢
    have hgroup := group_sorted hempty hnodup hpaths
    have hperm := items.perm_insertionSort fun a b => value a.1 ≤ value b.1
    generalize (items.insertionSort fun a b => value a.1 ≤ value b.1) = sorted
      at *
    have hsound : Sound keccak256 64 (build 65 sorted 0) :=
      hgroup.sound le_rfl fun part hpart => hsize _ part rfl hpart
    have hlength : (nibbles key.bytes).length = 64 := by rw [length_nibbles, key.size]
    have hfind : find (build 65 sorted 0) (nibbles key.bytes) = latest entries key := by
      apply Option.ext
      intro value
      have hbuild := @Group.find_build sorted 0 65 hgroup le_rfl _ hlength (nibbles_lt _)
        (fun _ _ => rfl) value
      rw [drop_zero] at hbuild
      rw [hbuild, hperm.mem_iff, hlatest]
    have hnodes : ∀ b ∈ prove keccak256 (some (build 65 sorted 0)) key,
        ∃ m part, Sound keccak256 m part ∧ b = encode keccak256 part := by
      exact forall_mem_cons.mpr ⟨⟨64, _, hsound, rfl⟩, fun b hb => hsound.mem_proveBelow hb⟩
    have hcount : (prove keccak256 (some (build 65 sorted 0)) key).length ≤ maxProofNodes :=
      Nat.succ_le_succ (hsound.length_proveBelow _)
    refine ⟨?_, hcount, ?_⟩
    · rw [walk_eq_ok, ← hfind]
      refine ⟨?_, .inr ⟨cons_ne_nil _ _, ?_⟩⟩
      · rw [not_or]
        refine ⟨not_lt.mpr hcount, ?_⟩
        rintro ⟨b, hb, hlong⟩
        obtain ⟨m, part, hpart, rfl⟩ := hnodes b hb
        exact not_lt.mpr hpart.size hlong
      · apply hsound.walkLoop_find (by decide) hlength (nibbles_lt _)
        rw [append_nil]
        show resolve keccak256 (.hash _) (_ :: _) = _
        rw [resolve, rootHash, if_neg (not_not.mpr rfl), hsound.decode]
        rfl
    · intro b hb
      obtain ⟨m, part, hpart, rfl⟩ := hnodes b hb
      exact ⟨_, hpart.decode⟩

/-! ## A trie with two paths

They differ in the last nibble: the root is an extension over an embedded branch of two embedded
leaves. -/

def pairEntries : List (Hash32 × Bytes) := [(ofNat 1, [6]), (zero, [5])]

def pairNode : Bytes := toBytes 56
  0xf7a01000000000000000000000000000000000000000000000000000000000000000d5c22005c22006808080808080808080808080808080

def pairRoot : Hash32 :=
  ofNat 0xb1b2307594d4345a90b1f4fba0287a3bea7a7e7b76fea2609ecc8ec1f959d4e2

def pairKeccak (b : Bytes) : Hash32 := if b = pairNode then pairRoot else zero

theorem length_pair_le {root node : Node} (hroot : fromPaths pairEntries = some root)
    (hnode : PartOf node root) : (encode pairKeccak node).length ≤ maxProofNodeBytes := by
  cases hroot
  change PartOf node (.extension _ (.branch _)) at hnode
  cases hnode with
  | self => decide +kernel
  | extension _ hnode =>
    cases hnode with
    | self => decide +kernel
    | branch nibble hchild hnode =>
      fin_cases nibble
      · cases hchild
        cases hnode
        decide +kernel
      · cases hchild
        cases hnode
        decide +kernel
      all_goals cases hchild

theorem honest_proofs_accepted_pair :
    prove pairKeccak (fromPaths pairEntries) zero = [pairNode] ∧
      walk pairKeccak pairRoot zero [pairNode] = .ok (some [5]) ∧
      walk pairKeccak pairRoot (ofNat 2) [pairNode] = .ok none := by
  have hroot : rootHash pairKeccak (fromPaths pairEntries) = pairRoot := by decide +kernel
  have hproof : prove pairKeccak (fromPaths pairEntries) zero = [pairNode] := by
    decide +kernel
  have habsent : prove pairKeccak (fromPaths pairEntries) (ofNat 2) = [pairNode] := by
    decide +kernel
  have haccepted := honest_proofs_accepted pairKeccak pairEntries fun _ _ => length_pair_le
  have hfound := (haccepted zero).1
  have hnone := (haccepted (ofNat 2)).1
  exact ⟨hproof, hfound, hnone⟩

end TestTrie

end QuaiSdk.Provider
