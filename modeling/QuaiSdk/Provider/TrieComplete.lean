import QuaiSdk.Provider.TestTrie

/-!
# Honest proofs are accepted

The verifier's walk over the proofs of an honest trie: every node reads back as what the builder
wrote, whether it is hashed or embedded, and the walk ends at what the trie holds for the path.
-/

namespace QuaiSdk.Provider

open Result List Rlp

namespace TestTrie

variable {keccak256 : Bytes → Hash32}

theorem exists_nibble {x : UInt8} (h : x < 16) : ∃ i : Fin 16, x = UInt8.ofNat i := by
  refine ⟨⟨x.toNat, UInt8.lt_iff_toNat_lt.mp h⟩, ?_⟩
  exact (UInt8.ofNat_toNat).symm

theorem split_pair {high low : UInt8} (hhigh : high < 16) (hlow : low < 16) :
    (high <<< 4 ||| low) >>> 4 = high ∧ (high <<< 4 ||| low) &&& 0x0f = low := by
  obtain ⟨i, rfl⟩ := exists_nibble hhigh
  obtain ⟨j, rfl⟩ := exists_nibble hlow
  revert i j
  decide

theorem nibbles_lt (b : Bytes) : ∀ x ∈ nibbles b, x < 16 := by
  intro x hx
  obtain ⟨byte, -, hx⟩ := mem_flatMap.mp hx
  rcases mem_pair.mp hx with rfl | rfl
  · have := byte.toNat_lt
    show byte.toNat >>> 4 < 16
    omega
  · exact lt_of_le_of_lt Nat.and_le_right (by decide)

variable {path b value : Bytes} {n levels : ℕ} {node : Node} {written : List Bytes}
  {children : Fin 16 → Option Node}

theorem nibbles_pack (heven : path.length % 2 = 0) (h : ∀ x ∈ path, x < 16) :
    nibbles (pack path) = path := by
  induction path using pack.induct with
  | case1 high low rest ih =>
    have hhigh := h high (by simp)
    have hlow := h low (by simp)
    obtain ⟨hfirst, hsecond⟩ := split_pair hhigh hlow
    have hrest : nibbles (pack rest) = rest := by
      apply ih
      · simp only [length_cons] at heven
        omega
      · exact fun x hx => h x (by simp [hx])
    rw [pack, nibbles, flatMap_cons, ← nibbles, hrest, hfirst, hsecond]
    rfl
  | case2 path hpath =>
    cases path with
    | nil => rfl
    | cons a rest =>
      cases rest with
      | nil => cases heven
      | cons b rest => exact (hpath a b rest rfl).elim

theorem hexPrefix_compactPath (h : ∀ x ∈ path, x < 16) (leaf : Bool) :
    hexPrefix (compactPath path leaf) = .ok (leaf, path) := by
  cases path with
  | nil => cases leaf <;> rfl
  | cons nibble rest =>
    have hnibble := h nibble mem_cons_self
    have hrest : ∀ x ∈ rest, x < 16 := (forall_mem_cons.mp h).2
    unfold compactPath
    by_cases hodd : (nibble :: rest).length % 2 = 1
    · have hpack : nibbles (pack rest) = rest := by
        apply nibbles_pack _ hrest
        rw [length_cons] at hodd
        omega
      dsimp only
      rw [if_pos hodd, hexPrefix, hpack]
      have hflag : ((if leaf = true then 2 else 0 : UInt8) + 1) < 16 := by cases leaf <;> decide
      obtain ⟨hfirst, hsecond⟩ := split_pair hflag hnibble
      rw [hfirst, hsecond]
      cases leaf <;> rfl
    · have hpack : nibbles (pack (nibble :: rest)) = nibble :: rest := nibbles_pack (by omega) h
      dsimp only
      rw [if_neg hodd, hexPrefix, hpack]
      cases leaf <;> rfl

section Items

variable (keccak256 : Bytes → Hash32)

def embedItem (encoded : Bytes) (item : Rlp.Item) : Rlp.Item :=
  if encoded.length < 32 then item else .bytes (keccak256 encoded).bytes

mutual

def nodeItem : Node → Rlp.Item
  | .leaf path value => .list [.bytes (compactPath path true), .bytes value]
  | .extension path child =>
    .list [.bytes (compactPath path false),
      embedItem keccak256 (encode keccak256 child) (nodeItem child)]
  | .branch children =>
    .list ((finRange 16).map (fun i => childItem (children i)) ++ [.bytes []])

def childItem : Option Node → Rlp.Item
  | none => .bytes []
  | some node => embedItem keccak256 (encode keccak256 node) (nodeItem node)

end

end Items

/-- Nodes as the builder makes them for paths of which so many nibbles remain, each within the
verifier's bound: an extension always leads to a branch. -/
inductive Sound (keccak256 : Bytes → Hash32) : ℕ → Node → Prop where
  | leaf (path value : Bytes) (hpath : ∀ x ∈ path, x < 16)
      (hsize : (encode keccak256 (.leaf path value)).length ≤ maxProofNodeBytes) :
      Sound keccak256 path.length (.leaf path value)
  | extension (n : ℕ) (path : Bytes) (children : Fin 16 → Option Node)
      (hpath : ∀ x ∈ path, x < 16) (hne : path ≠ [])
      (hsize : (encode keccak256 (.extension path (.branch children))).length ≤ maxProofNodeBytes)
      (hchild : Sound keccak256 n (.branch children)) :
      Sound keccak256 (path.length + n) (.extension path (.branch children))
  | branch (n : ℕ) (children : Fin 16 → Option Node)
      (hsize : (encode keccak256 (.branch children)).length ≤ maxProofNodeBytes)
      (hchildren : ∀ i node, children i = some node → Sound keccak256 n node) :
      Sound keccak256 (n + 1) (.branch children)

theorem Sound.size (h : Sound keccak256 n node) :
    (encode keccak256 node).length ≤ maxProofNodeBytes := by
  cases h with
  | leaf path value hpath hsize | extension n path children hpath hne hsize
  | branch n children hsize => exact hsize

theorem encode_embedItem {encoded : Bytes} {item : Item} (h : item.encode = encoded) :
    (embedItem keccak256 encoded item).encode = embed keccak256 encoded := by
  unfold embed embedItem
  split
  · exact h
  · rw [Item.encode]

mutual

theorem encode_nodeItem : ∀ node, (nodeItem keccak256 node).encode = encode keccak256 node
  | .leaf path value => by
    rw [nodeItem, encode, Item.encode]
    simp only [map_cons, map_nil, Item.encode]
  | .extension path child => by
    rw [nodeItem, encode, Item.encode]
    simp only [map_cons, map_nil, Item.encode, encode_embedItem (encode_nodeItem child)]
  | .branch children => by
    have hchildren : ∀ i, (childItem keccak256 (children i)).encode =
        reference keccak256 (children i) := fun i => encode_childItem (children i)
    rw [nodeItem, encode, Item.encode]
    simp only [map_append, map_map, Function.comp_def, hchildren, map_cons, map_nil, Item.encode]
    rfl

theorem encode_childItem : ∀ child, (childItem keccak256 child).encode = reference keccak256 child
  | none => by
    rw [childItem, reference, Item.encode]
    rfl
  | some node => by rw [childItem, reference, encode_embedItem (encode_nodeItem node)]

end

theorem reference_ne_nil (child : Option Node) : reference keccak256 child ≠ [] := by
  rw [← encode_childItem]
  exact Rlp.encode_ne_nil _

theorem length_le_flatten (hne : ∀ b ∈ written, b ≠ []) :
    written.length ≤ written.flatten.length := by
  induction written with
  | nil => exact le_rfl
  | cons b written ih =>
    have hb := length_pos_iff.mpr (hne b mem_cons_self)
    have hrest := ih (forall_mem_cons.mp hne).2
    rw [flatten_cons, length_append, length_cons]
    omega

/-- Every item takes at least a byte, so one of them leaves room for the others. -/
theorem length_add_le_flatten (hne : ∀ b ∈ written, b ≠ []) (h : b ∈ written) :
    b.length + written.length ≤ written.flatten.length + 1 := by
  obtain ⟨front, back, rfl⟩ := append_of_mem h
  have hfront : front.length ≤ front.flatten.length :=
    length_le_flatten fun b hb => hne b (mem_append_left _ hb)
  have hback : back.length ≤ back.flatten.length :=
    length_le_flatten fun b hb => hne b (mem_append_right _ (mem_cons_of_mem _ hb))
  simp only [length_append, length_cons, flatten_append, flatten_cons]
  omega

/-! ### Nesting

An embedded node is short.  A branch takes 18 bytes at least, so a branch embedded in a branch would
be too long for it: embedded nodes nest three deep, far from the decoder's limit. -/

def slots (keccak256 : Bytes → Hash32) (children : Fin 16 → Option Node) : List Bytes :=
  (finRange 16).map (fun i => reference keccak256 (children i)) ++ [[0x80]]

theorem slots_ne_nil (children : Fin 16 → Option Node) :
    ∀ b ∈ slots keccak256 children, b ≠ [] := by
  intro b hb
  rcases mem_append.mp hb with hb | hb
  · obtain ⟨i, -, rfl⟩ := mem_map.mp hb
    exact reference_ne_nil _
  · rw [mem_singleton.mp hb]
    exact cons_ne_nil _ _

theorem length_reference_le (children : Fin 16 → Option Node) (i : Fin 16) :
    (reference keccak256 (children i)).length + 17 ≤
      (encode keccak256 (.branch children)).length := by
  have hmem : reference keccak256 (children i) ∈ slots keccak256 children :=
    mem_append_left _ (mem_map_of_mem (mem_finRange i))
  have hslots := length_add_le_flatten (slots_ne_nil children) hmem
  have hlist := length_writeList (slots keccak256 children)
  rw [show (slots keccak256 children).length = 17 from rfl] at hslots
  rw [encode, ← slots]
  omega

theorem length_branch (children : Fin 16 → Option Node) :
    18 ≤ (encode keccak256 (.branch children)).length := by
  have hslot := @length_reference_le keccak256 children 0
  have hpos := length_pos_iff.mpr (@reference_ne_nil keccak256 (children 0))
  omega

theorem length_extension (path : Bytes) (children : Fin 16 → Option Node) :
    18 < (encode keccak256 (.extension path (.branch children))).length := by
  have hbranch := @length_branch keccak256 children
  have hembed : 18 ≤ (embed keccak256 (encode keccak256 (.branch children))).length := by
    unfold embed
    split
    · exact hbranch
    · have hbytes := length_writeBytes (keccak256 (encode keccak256 (.branch children))).bytes
      rw [Hash32.size] at hbytes
      omega
  have hlist := length_writeList [writeBytes (compactPath path false),
    embed keccak256 (encode keccak256 (.branch children))]
  rw [encode]
  simp only [flatten_cons, flatten_nil, length_append, length_nil] at hlist
  omega

theorem within_bytes (hlevels : 1 ≤ levels) : Within levels (.bytes value) :=
  Within.mono (.bytes value : Within 1 _) hlevels

theorem within_embed (hlevels : 1 ≤ levels)
    (h : (encode keccak256 node).length < 32 → Within levels (nodeItem keccak256 node)) :
    Within levels (embedItem keccak256 (encode keccak256 node) (nodeItem keccak256 node)) := by
  unfold embedItem
  split
  · rename_i hshort
    exact h hshort
  · exact within_bytes hlevels

theorem within_leaf : Within 2 (nodeItem keccak256 (.leaf path value)) := by
  exact .list (forall_mem_cons.mpr ⟨.bytes _, forall_mem_singleton.mpr (.bytes _)⟩)

theorem within_branch (hlevels : 1 ≤ levels)
    (h : ∀ i node, children i = some node → (encode keccak256 node).length < 32 →
      Within levels (nodeItem keccak256 node)) :
    Within (levels + 1) (nodeItem keccak256 (.branch children)) := by
  apply Within.list
  rw [forall_mem_append, forall_mem_map, forall_mem_singleton]
  refine ⟨fun i _ => ?_, within_bytes hlevels⟩
  cases hchild : children i with
  | none =>
    exact within_bytes hlevels
  | some node =>
    exact within_embed hlevels (h i node hchild)

theorem within_extension {child : Node} (hlevels : 1 ≤ levels)
    (h : (encode keccak256 child).length < 32 → Within levels (nodeItem keccak256 child)) :
    Within (levels + 1) (nodeItem keccak256 (.extension path child)) := by
  apply Within.list
  rw [forall_mem_cons, forall_mem_singleton]
  exact ⟨within_bytes hlevels, within_embed hlevels h⟩

/-- A branch below 32 bytes has no room for anything but leaves. -/
theorem Sound.within_short_branch (h : Sound keccak256 n (.branch children))
    (hshort : (encode keccak256 (.branch children)).length < 32) :
    Within 3 (nodeItem keccak256 (.branch children)) := by
  cases h with
  | branch n children hsize hchildren =>
    apply within_branch (by decide)
    intro i node hchild hembedded
    have hroom := @length_reference_le keccak256 children i
    rw [hchild, reference, embed, if_pos hembedded] at hroom
    cases hchildren i node hchild with
    | leaf => exact within_leaf
    | extension n path children =>
      have hlength := @length_extension keccak256 path children
      omega
    | branch n children =>
      have hlength := @length_branch keccak256 children
      omega

theorem Sound.within_short (h : Sound keccak256 n node)
    (hshort : (encode keccak256 node).length < 32) : Within 4 (nodeItem keccak256 node) := by
  cases h with
  | leaf => exact within_leaf.mono (by decide)
  | extension n path children hpath hne hsize hchild =>
    exact within_extension (by decide) hchild.within_short_branch
  | branch n children hsize hchildren =>
    exact (Sound.within_short_branch (.branch n children hsize hchildren) hshort).mono (by decide)

/-- Every node reads back, well within the decoder's nesting limit. -/
theorem Sound.decode (h : Sound keccak256 n node) :
    Rlp.decode (encode keccak256 node) = .ok (nodeItem keccak256 node) := by
  have hwithin : Within 5 (nodeItem keccak256 node) := by
    cases h with
    | leaf => exact within_leaf.mono (by decide)
    | extension n path children hpath hne hsize hchild =>
      exact within_extension (by decide) fun hshort => hchild.within_short hshort
    | branch n children hsize hchildren =>
      exact within_branch (by decide) fun i node hchild hshort =>
        (hchildren i node hchild).within_short hshort
  have hsize : (nodeItem keccak256 node).encode.length < 256 ^ 8 := by
    rw [encode_nodeItem]
    exact lt_of_le_of_lt h.size (by decide)
  rw [← encode_nodeItem]
  exact (hwithin.encodes hsize).decode (by decide)

mutual

def find : Node → Bytes → Option Bytes
  | .leaf front value, path => if front = path then some value else none
  | .extension front child, path =>
    if front <+: path then find child (path.drop front.length) else none
  | .branch children, path => findChild (children (firstNibble path)) path.tail

def findChild : Option Node → Bytes → Option Bytes
  | none, _ => none
  | some node, path => find node path

end

def nextOf (keccak256 : Bytes → Hash32) (node : Node) : Next :=
  if (encode keccak256 node).length < 32 then .inline (nodeItem keccak256 node)
  else .hash (keccak256 (encode keccak256 node))

theorem nodeItem_list (node : Node) : ∃ items, nodeItem keccak256 node = .list items := by
  cases node with
  | leaf | extension | branch => rw [nodeItem]; exact ⟨_, rfl⟩

theorem hash32_bytes (h : Hash32) : hash32 h.bytes = .ok h := by
  rw [hash32, Hash32.ofBytes_bytes]
  rfl

theorem child_embedItem (node : Node) :
    child (embedItem keccak256 (encode keccak256 node) (nodeItem keccak256 node)) =
      .ok (some (nextOf keccak256 node)) := by
  unfold embedItem nextOf
  split
  · obtain ⟨items, hitems⟩ := @nodeItem_list keccak256 node
    rw [hitems, child]
  · have hhash := hash32_bytes (keccak256 (encode keccak256 node))
    have hsize := (keccak256 (encode keccak256 node)).size
    generalize (keccak256 (encode keccak256 node)).bytes = b at hhash hsize
    cases b with
    | nil => cases hsize
    | cons => rw [child, hhash]; rfl

theorem Sound.resolve_nextOf (h : Sound keccak256 n node) (rest : List Bytes) :
    resolve keccak256 (nextOf keccak256 node) (sent keccak256 node ++ rest) =
      .ok (nodeItem keccak256 node, rest) := by
  unfold nextOf sent
  by_cases hshort : (encode keccak256 node).length < 32
  · rw [if_pos hshort, if_neg (not_le.mpr hshort)]
    rfl
  · rw [if_neg hshort, if_pos (not_lt.mp hshort), singleton_append, resolve,
      if_neg (not_not.mpr rfl), h.decode]
    rfl

theorem visit_leaf {front : Bytes} (hfront : ∀ x ∈ front, x < 16)
    (hlength : path.length = front.length) :
    visit (nodeItem keccak256 (.leaf front value)) path =
      .ok (.found (find (.leaf front value) path)) := by
  rw [nodeItem, find]
  show shortNode (compactPath front true) (.bytes value) path = _
  rw [shortNode, hexPrefix_compactPath hfront]
  show (if true = true ∧ front.length ≠ path.length then _ else _) = _
  rw [if_neg (by simp [hlength])]
  by_cases hsame : front = path
  · subst hsame
    simp
  · have hpart : ¬front <+: path := fun h => hsame (h.eq_of_length hlength.symm)
    simp [hpart, hsame]

theorem visit_extension {front : Bytes} {child : Node} (hfront : ∀ x ∈ front, x < 16)
    (hne : front ≠ []) (hlength : front.length < path.length) :
    visit (nodeItem keccak256 (.extension front child)) path =
      .ok (if front <+: path then .goesOn (path.drop front.length) (nextOf keccak256 child)
        else .found none) := by
  show shortNode (compactPath front false) _ path = _
  unfold shortNode
  rw [hexPrefix_compactPath hfront, ok_bind]
  dsimp only
  by_cases hpart : front <+: path
  · have hshorter : ¬front.length = path.length := by omega
    rw [if_neg (by simp), if_neg (not_not.mpr hpart), if_neg (by simp),
      if_neg (by rw [not_or]; exact ⟨hne, hshorter⟩), child_embedItem, if_pos hpart]
    rfl
  · rw [if_neg (by simp), if_pos hpart, if_neg hpart]

def childOutcome (keccak256 : Bytes → Hash32) (path : Bytes) : Option Node → Outcome
  | none => .found none
  | some node => .goesOn path (nextOf keccak256 node)

theorem visit_branch {nibble : UInt8} (hnibble : nibble < 16) :
    visit (nodeItem keccak256 (.branch children)) (nibble :: path) =
      .ok (childOutcome keccak256 path (children (firstNibble (nibble :: path)))) := by
  have hlt : nibble.toNat < 16 := UInt8.lt_iff_toNat_lt.mp hnibble
  have hindex : firstNibble (nibble :: path) = ⟨nibble.toNat, hlt⟩ := by
    ext
    exact Nat.mod_eq_of_lt hlt
  have hitem : ((finRange 16).map (fun i => childItem keccak256 (children i)) ++
      [Rlp.Item.bytes []]).getD nibble.toNat (.bytes []) =
        childItem keccak256 (children ⟨nibble.toNat, hlt⟩) := by
    rw [getD_eq_getElem?_getD, getElem?_append_left (by simpa using hlt),
      getElem?_map, getElem?_eq_getElem (by simpa using hlt), getElem_finRange]
    rfl
  rw [nodeItem]
  unfold visit
  dsimp only
  rw [if_pos (by simp), branchNode, hitem, hindex]
  cases children ⟨nibble.toNat, hlt⟩ with
  | none =>
    rfl
  | some =>
    rw [childItem, child_embedItem]
    rfl

section

variable (h : Sound keccak256 n node)
include h

/-- The verifier finds what the trie holds, and takes exactly the nodes the builder sent. -/
theorem Sound.walkLoop_find {fuel : ℕ} (hfuel : n < fuel)
    (hlength : path.length = n) (hpath : ∀ x ∈ path, x < 16) {next : Next}
    {unused extra : List Bytes}
    (hresolve : resolve keccak256 next unused =
      .ok (nodeItem keccak256 node, proveBelow keccak256 node path ++ extra)) :
    walkLoop keccak256 fuel ⟨path, unused, next⟩ = some (.ok (find node path, extra)) := by
  induction h generalizing fuel path next unused with
  | leaf front value hfront hsize =>
    obtain ⟨fuel, rfl⟩ : ∃ k, fuel = k + 1 := ⟨fuel - 1, by omega⟩
    rw [walkLoop, hresolve]
    dsimp only
    rw [visit_leaf hfront hlength, proveBelow]
    rfl
  | extension n front children hfront hne hsize hchild ih =>
    obtain ⟨fuel, rfl⟩ : ∃ k, fuel = k + 1 := ⟨fuel - 1, by omega⟩
    have hpos := length_pos_iff.mpr hne
    have hshorter : front.length < path.length := by
      cases hchild with
      | branch n children hsize hchildren => omega
    rw [proveBelow] at hresolve
    rw [walkLoop, hresolve, find]
    dsimp only
    rw [visit_extension hfront hne hshorter]
    by_cases hpart : front <+: path
    · rw [if_pos hpart, if_pos hpart, if_pos hpart, append_assoc]
      apply ih (by omega) (by rw [length_drop]; omega) (fun x hx => hpath x (mem_of_mem_drop hx))
      exact hchild.resolve_nextOf _
    · rw [if_neg hpart, if_neg hpart, if_neg hpart]
      rfl
  | branch n children hsize hchildren ih =>
    obtain ⟨fuel, rfl⟩ : ∃ k, fuel = k + 1 := ⟨fuel - 1, by omega⟩
    cases path with
    | nil => cases hlength
    | cons nibble path =>
      rw [proveBelow] at hresolve
      rw [walkLoop, hresolve, find]
      dsimp only
      rw [visit_branch (hpath nibble mem_cons_self)]
      cases hchild : children (firstNibble (nibble :: path)) with
      | none =>
        rfl
      | some node =>
        rw [findChild, proveChild, append_assoc]
        apply ih _ node hchild (by omega) (Nat.succ.inj hlength) (forall_mem_cons.mp hpath).2
        exact (hchildren _ node hchild).resolve_nextOf _

theorem Sound.length_proveBelow (path : Bytes) : (proveBelow keccak256 node path).length ≤ n := by
  have hsent : ∀ node, (sent keccak256 node).length ≤ 1 := by
    intro node
    unfold sent
    split
    · exact le_rfl
    · exact Nat.zero_le _
  induction h generalizing path with
  | leaf =>
    exact Nat.zero_le _
  | extension n front children hfront hne hsize hchild ih =>
    have hpos := length_pos_iff.mpr hne
    have hbranch := hsent (.branch children)
    have hbelow := ih (path.drop front.length)
    rw [proveBelow]
    split
    · rw [length_append]
      omega
    · exact Nat.zero_le _
  | branch n children hsize hchildren ih =>
    rw [proveBelow]
    cases hchild : children (firstNibble path) with
    | none =>
      exact Nat.zero_le _
    | some node =>
      have hnode := hsent node
      have hbelow := ih _ node hchild path.tail
      rw [proveChild, length_append]
      omega

theorem Sound.mem_proveBelow (hb : b ∈ proveBelow keccak256 node path) :
    ∃ m part, Sound keccak256 m part ∧ b = encode keccak256 part := by
  have hsent : ∀ {m part}, Sound keccak256 m part → b ∈ sent keccak256 part →
      ∃ m part, Sound keccak256 m part ∧ b = encode keccak256 part := by
    intro m part hpart hb
    unfold sent at hb
    split at hb
    · exact ⟨m, part, hpart, mem_singleton.mp hb⟩
    · cases hb
  induction h generalizing path with
  | leaf =>
    cases hb
  | extension n front children hfront hne hsize hchild ih =>
    rw [proveBelow] at hb
    split at hb
    · exact (mem_append.mp hb).elim (hsent hchild) ih
    · cases hb
  | branch n children hsize hchildren ih =>
    rw [proveBelow] at hb
    cases hchild : children (firstNibble path) with
    | none =>
      rw [hchild, proveChild] at hb
      cases hb
    | some node =>
      rw [hchild, proveChild] at hb
      exact (mem_append.mp hb).elim (hsent (hchildren _ node hchild)) (ih _ node hchild)

end

end TestTrie

end QuaiSdk.Provider
