import QuaiSdk.Consensus.QiClassification
import QuaiSdk.Lib.Tree
import QuaiSdk.Storage.Candidates

/-!
# Families of candidates

What validation accepts is a tree of candidates, each following its parent by the rule of its ledger;
a family accepts one more edge if the edge's own rule holds and its hash is new.
-/

namespace QuaiSdk.Storage

open Result List

variable {C : Crypto}

def familyPayloads (root : Bytes) (variants : List QuaiReplacement) : List Bytes :=
  root :: variants.map QuaiReplacement.payload

section Grow

variable {α : Type} (decode : Bytes → Except TransactionError α)
  (hash : α → Except TransactionError Hash32) (follows : α → α → Prop)

/-- Candidates under their hashes: a new one follows a parent that is there. -/
inductive Family (root : Hash32 × α) : List QuaiReplacement → List (Hash32 × α) → Prop where
  | root : Family root [] []
  | child {variants : List QuaiReplacement} {nodes : List (Hash32 × α)} {v : QuaiReplacement}
      {parent : α} {node : Hash32 × α} (h : Family root variants nodes)
      (hparent : (v.parent, parent) ∈ root :: nodes) (hdecode : decode v.payload = .ok node.2)
      (hhash : hash node.2 = .ok node.1) (hfollows : follows parent node.2)
      (hnew : node.1 ∉ (root :: nodes).map Prod.fst) :
      Family root (variants ++ [v]) (nodes ++ [node])

def EdgeRule (edge : Table Hash32 α → QuaiReplacement → Except StorageError (Table Hash32 α)) :
    Prop :=
  ∀ known v known', edge known v = .ok known' ↔ ∃ parent signed h,
    known.lookup v.parent = some parent ∧ decode v.payload = .ok signed ∧ follows parent signed ∧
      hash signed = .ok h ∧ known.lookup h = none ∧ known' = known.insert h signed

variable {decode hash follows} {root : Hash32 × α} {variants : List QuaiReplacement}
  {nodes : List (Hash32 × α)} {node : Hash32 × α} {v : QuaiReplacement}
  {edge : Table Hash32 α → QuaiReplacement → Except StorageError (Table Hash32 α)}
  {known : Table Hash32 α}

def Holds (known : Table Hash32 α) (family : List (Hash32 × α)) : Prop :=
  ∀ h x, known.lookup h = some x ↔ (h, x) ∈ family

theorem Holds.lookup_eq_none {family : List (Hash32 × α)} (hholds : Holds known family)
    {h : Hash32} : known.lookup h = none ↔ h ∉ family.map Prod.fst := by
  rw [Option.eq_none_iff_forall_ne_some]
  simp only [ne_eq, hholds h, mem_map, Prod.exists, exists_and_right, exists_eq_right, not_exists]

theorem Holds.insert {family : List (Hash32 × α)} (hholds : Holds known family)
    (hnew : known.lookup node.1 = none) : Holds (known.insert node.1 node.2) (family ++ [node]) := by
  intro h x
  rw [Table.lookup_insert_eq, mem_append, mem_singleton, ← hholds h x]
  split
  · next heq =>
    subst heq
    rw [hnew, Option.some.injEq, Prod.ext_iff]
    simp only [reduceCtorEq, false_or, true_and, eq_comm]
  · next hne =>
    have hother : (h, x) ≠ node := fun heq => hne (congrArg Prod.fst heq)
    simp only [hother, or_false]

theorem holds_singleton : Holds (AList.singleton root.1 root.2 : Table Hash32 α) [root] := by
  intro h x
  rw [← AList.insert_empty, Table.lookup_insert_eq, mem_singleton, Prod.ext_iff]
  split
  · next heq => simp only [Option.some.injEq, heq, true_and, eq_comm]
  · next hne => simp only [AList.lookup_empty, reduceCtorEq, hne, false_and]

theorem foldlM_eq_ok (hrule : EdgeRule decode hash follows edge) :
    variants.foldlM edge (AList.singleton root.1 root.2) = .ok known →
      ∃ nodes, Family decode hash follows root variants nodes ∧ Holds known (root :: nodes) := by
  induction variants using reverseRecOn generalizing known with
  | nil =>
    intro h
    cases h
    exact ⟨[], .root, holds_singleton⟩
  | append_singleton variants v ih =>
    intro h
    rw [foldlM_append, bind_eq_ok] at h
    obtain ⟨known', hfold, hedge⟩ := h
    obtain ⟨nodes, hfamily, hholds⟩ := ih hfold
    rw [foldlM_cons, bind_eq_ok] at hedge
    obtain ⟨_, hedge, hlast⟩ := hedge
    cases hlast
    obtain ⟨parent, signed, h, hparent, hdecode, hfollows, hhash, hnew, rfl⟩ :=
      (hrule _ _ _).mp hedge
    have hholds' : Holds (known'.insert h signed) (root :: nodes ++ [(h, signed)]) :=
      @Holds.insert _ (h, signed) _ _ hholds hnew
    exact ⟨nodes ++ [(h, signed)], hfamily.child ((hholds _ _).mp hparent) hdecode hhash hfollows
      (hholds.lookup_eq_none.mp hnew), hholds'⟩

theorem Family.foldlM (hrule : EdgeRule decode hash follows edge)
    (h : Family decode hash follows root variants nodes) :
    ∃ known, variants.foldlM edge (AList.singleton root.1 root.2) = .ok known ∧
      Holds known (root :: nodes) := by
  induction h with
  | root => exact ⟨_, rfl, holds_singleton⟩
  | @child variants nodes v parent node h hparent hdecode hhash hfollows hnew ih =>
    obtain ⟨known, hfold, hholds⟩ := ih
    have hfresh := hholds.lookup_eq_none.mpr hnew
    refine ⟨known.insert node.1 node.2, ?_, hholds.insert hfresh⟩
    rw [foldlM_append, hfold, ok_bind, foldlM_cons, (hrule _ _ _).mpr
      ⟨parent, node.2, node.1, (hholds _ _).mpr hparent, hdecode, hfollows, hhash, hfresh, rfl⟩]
    rfl

def hashEdges (variants : List QuaiReplacement) (nodes : List (Hash32 × α)) :
    List (Hash32 × Hash32) :=
  (variants.map QuaiReplacement.parent).zip (nodes.map Prod.fst)

/-- Candidates read from the variants in order, and their hashes as a tree in which a parent comes
before its child. -/
structure TreeOf (decode : Bytes → Except TransactionError α)
    (hash : α → Except TransactionError Hash32) (root : Hash32 × α)
    (variants : List QuaiReplacement) (nodes : List (Hash32 × α)) : Prop where
  reads : List.Forall₂ (fun (v : QuaiReplacement) (n : Hash32 × α) =>
    decode v.payload = .ok n.2 ∧ hash n.2 = .ok n.1) variants nodes
  ordered : Tree.Grown root.1 (hashEdges variants nodes)
  distinct : ((root :: nodes).map Prod.fst).Nodup
  rooted : ∀ n ∈ root :: nodes,
    Relation.ReflTransGen (Tree.Edge (hashEdges variants nodes)) root.1 n.1
  acyclic : ∀ h, ¬Relation.TransGen (Tree.Edge (hashEdges variants nodes)) h h

theorem nodes_hashEdges (h : variants.length = nodes.length) :
    Tree.nodes root.1 (hashEdges variants nodes) = (root :: nodes).map Prod.fst := by
  rw [Tree.nodes, hashEdges, map_snd_zip (by simp [h]), map_cons]

namespace Family

variable (h : Family decode hash follows root variants nodes)

include h

theorem front {front : List QuaiReplacement}
    (hfront : front <+: variants) : ∃ nodes, Family decode hash follows root front nodes := by
  induction h with
  | root =>
    rw [prefix_nil.mp hfront]
    exact ⟨[], .root⟩
  | child h hparent hdecode hhash hfollows hnew ih =>
    rcases prefix_concat_iff.mp hfront with rfl | hfront
    · exact ⟨_, h.child hparent hdecode hhash hfollows hnew⟩
    · exact ih hfront

theorem reads : List.Forall₂ (fun (v : QuaiReplacement) (n : Hash32 × α) =>
      decode v.payload = .ok n.2 ∧ hash n.2 = .ok n.1) variants nodes := by
  induction h with
  | root => exact .nil
  | child h hparent hdecode hhash hfollows hnew ih =>
    exact rel_append ih (.cons ⟨hdecode, hhash⟩ .nil)

theorem grown : Tree.Grown root.1 (hashEdges variants nodes) := by
  induction h with
  | root => exact .nil
  | @child variants nodes v parent node h hparent hdecode hhash hfollows hnew ih =>
    have hlength := h.reads.length_eq
    have hedges : hashEdges (variants ++ [v]) (nodes ++ [node]) =
        hashEdges variants nodes ++ [(v.parent, node.1)] := by
      rw [hashEdges, map_append, map_append, zip_append (by simpa using hlength)]
      rfl
    rw [hedges]
    apply ih.snoc
    · rw [nodes_hashEdges hlength]
      exact mem_map_of_mem hparent
    · rwa [nodes_hashEdges hlength]

theorem treeOf : TreeOf decode hash root variants nodes := by
  have hgrown := h.grown
  have hnodes : Tree.nodes root.1 (hashEdges variants nodes) = (root :: nodes).map Prod.fst :=
    nodes_hashEdges h.reads.length_eq
  refine ⟨h.reads, hgrown, hnodes ▸ hgrown.nodup, ?_, hgrown.acyclic⟩
  intro n hn
  apply hgrown.rooted
  rw [hnodes]
  exact mem_map_of_mem hn

theorem invariant {P : α → Prop}
    (hroot : P root.2) (hstep : ∀ p x, P p → follows p x → P x) : ∀ n ∈ root :: nodes, P n.2 := by
  induction h with
  | root =>
    intro n hn
    rw [mem_singleton.mp hn]; exact hroot
  | child h hparent hdecode hhash hfollows hnew ih =>
    intro n hn
    rw [← cons_append, mem_append, mem_singleton] at hn
    rcases hn with hn | rfl
    · exact ih n hn
    · exact hstep _ _ (ih _ hparent) hfollows

theorem edges : List.Forall₂ (fun (v : QuaiReplacement) (n : Hash32 × α) =>
      ∃ parent, (v.parent, parent) ∈ root :: nodes ∧ follows parent n.2) variants nodes := by
  induction h with
  | root => exact .nil
  | child h hparent hdecode hhash hfollows hnew ih =>
    refine rel_append (ih.imp ?_) (.cons ⟨_, mem_append_left _ hparent, hfollows⟩ .nil)
    rintro v n ⟨parent, hmem, hn⟩
    exact ⟨parent, mem_append_left _ hmem, hn⟩

theorem decodes : ∀ v ∈ variants, ∃ n ∈ nodes, decode v.payload = .ok n.2 ∧ hash n.2 = .ok n.1 :=
  fun _ hv => forall₂_exists h.reads hv

variable {rootBytes payload : Bytes} {parent signed : α} {parentHash k : Hash32}

section

variable (hroot : decode rootBytes = .ok root.2)
include hroot

theorem mem_of_payload (hhash : hash root.2 = .ok root.1)
    (hmember : ∃ b ∈ familyPayloads rootBytes variants, decode b = .ok parent)
    (hparent : hash parent = .ok parentHash) : (parentHash, parent) ∈ root :: nodes := by
  have hsame : ∀ n : Hash32 × α, n.2 = parent → hash n.2 = .ok n.1 → (parentHash, parent) = n := by
    rintro n rfl hn
    rw [hparent, Except.ok.injEq] at hn
    exact Prod.ext hn rfl
  obtain ⟨b, hb, hdecode⟩ := hmember
  rcases mem_cons.mp hb with rfl | hb
  · rw [hsame root (Except.ok.inj (hroot.symm.trans hdecode)) hhash]
    exact mem_cons_self
  · obtain ⟨v, hv, rfl⟩ := mem_map.mp hb
    obtain ⟨n, hn, hread, hn'⟩ := h.decodes v hv
    rw [hsame n (Except.ok.inj (hread.symm.trans hdecode)) hn']
    exact mem_cons_of_mem _ hn

theorem payload_decodes : ∀ b ∈ familyPayloads rootBytes variants, ∃ x, decode b = .ok x := by
  intro b hb
  rcases mem_cons.mp hb with rfl | hb
  · exact ⟨root.2, hroot⟩
  · obtain ⟨v, hv, rfl⟩ := mem_map.mp hb
    obtain ⟨n, -, hread, -⟩ := h.decodes v hv
    exact ⟨n.2, hread⟩

theorem adopt (hhash : hash root.2 = .ok root.1)
    (hmember : ∃ b ∈ familyPayloads rootBytes variants, decode b = .ok parent)
    (hparent : hash parent = .ok parentHash) (hpayload : decode payload = .ok signed)
    (hsigned : hash signed = .ok k) (hfollows : follows parent signed)
    (hnew : ∀ b ∈ familyPayloads rootBytes variants, ∀ x, decode b = .ok x → hash x ≠ .ok k) :
    ∃ nodes, Family decode hash follows root (variants ++ [⟨parentHash, payload⟩]) nodes := by
  refine ⟨nodes ++ [(k, signed)], h.child (h.mem_of_payload hroot hhash hmember hparent) hpayload
    hsigned hfollows ?_⟩
  intro hmem
  obtain ⟨n, hn, rfl⟩ := mem_map.mp hmem
  rcases mem_cons.mp hn with rfl | hn
  · exact hnew rootBytes mem_cons_self _ hroot hhash
  · obtain ⟨v, hv, hread, hn'⟩ := forall₂_exists h.reads.flip hn
    exact hnew v.payload (mem_cons_of_mem _ (mem_map_of_mem hv)) _ hread hn'

end

end Family

theorem EdgeRule.foldlM_iff (hrule : EdgeRule decode hash follows edge) {k : Hash32} {x : α}
    {variants : List QuaiReplacement} :
    (∃ known, variants.foldlM edge (AList.singleton k x) = .ok known) ↔
      ∃ nodes, Family decode hash follows (k, x) variants nodes := by
  constructor
  · rintro ⟨known, hfold⟩
    have hroot : variants.foldlM edge (AList.singleton (k, x).1 (k, x).2) = .ok known := hfold
    obtain ⟨nodes, hfamily, -⟩ := foldlM_eq_ok hrule hroot
    exact ⟨nodes, hfamily⟩
  · rintro ⟨nodes, hfamily⟩
    obtain ⟨known, hfold, -⟩ := hfamily.foldlM hrule
    exact ⟨known, hfold⟩

end Grow

def QiFollows (parent signed : SignedQiOperation C) : Prop :=
  (signed.transaction.chainId = parent.transaction.chainId ∧
    signed.transaction.inputs = parent.transaction.inputs ∧
    signed.transaction.data = parent.transaction.data) ∧
  ∃ value, outputValue signed.transaction = .ok value ∧
    ∃ bound, outputValue parent.transaction = .ok bound ∧ value < bound

def QuaiFollows (parent signed : SignedQuaiTransaction C) : Prop :=
  signed.sender = parent.sender ∧
    parent.transaction.gasPrice.toNat < signed.transaction.gasPrice.toNat ∧
    signed.transaction = { parent.transaction with gasPrice := signed.transaction.gasPrice }

theorem qiEdge_rule :
    EdgeRule (SignedQiOperation.decode C) SignedQiOperation.hash QiFollows qiEdge := by
  intro known v known'
  simp only [qiEdge, eq_ok, orInvalid, Table.insertNew_eq_ok, not_or, not_not, not_le, QiFollows]
  constructor
  · rintro ⟨parent, hparent, signed, hsigned, hsame, value, hvalue, bound, hbound, hlt, hrest⟩
    obtain ⟨k, hk⟩ := hrest
    exact ⟨parent, signed, k, hparent, hsigned, ⟨hsame, value, hvalue, bound, hbound, hlt⟩, hk⟩
  · rintro ⟨parent, signed, k, hparent, hsigned, ⟨hsame, value, hvalue, bound, hbound, hlt⟩, hk⟩
    exact ⟨parent, hparent, signed, hsigned, hsame, value, hvalue, bound, hbound, hlt, k, hk⟩

theorem quaiEdge_rule :
    EdgeRule (SignedQuaiTransaction.decode C) SignedQuaiTransaction.hash QuaiFollows quaiEdge := by
  intro known v known'
  simp only [quaiEdge, eq_ok, orInvalid,
    Table.insertNew_eq_ok, not_or, not_not, not_le, QuaiFollows]
  constructor
  · rintro ⟨parent, hparent, signed, hsigned, hfollows, k, hk⟩
    exact ⟨parent, signed, k, hparent, hsigned, hfollows, hk⟩
  · rintro ⟨parent, signed, k, hparent, hsigned, hfollows, hk⟩
    exact ⟨parent, hparent, signed, hsigned, hfollows, k, hk⟩

abbrev QiFamily : Hash32 × SignedQiOperation C → List QuaiReplacement →
    List (Hash32 × SignedQiOperation C) → Prop :=
  Family (SignedQiOperation.decode C) SignedQiOperation.hash QiFollows

abbrev QuaiFamily : Hash32 × SignedQuaiTransaction C → List QuaiReplacement →
    List (Hash32 × SignedQuaiTransaction C) → Prop :=
  Family (SignedQuaiTransaction.decode C) SignedQuaiTransaction.hash QuaiFollows

variable {root b : Bytes} {variants : List QuaiReplacement} {h parentHash : Hash32}
  {s : SignedQuaiTransaction C} {op : SignedQiOperation C}

theorem candidateHash_qi (hdecode : SignedQiOperation.decode C b = .ok op) (hhash : op.hash = .ok h) :
    ScopeTables.candidateHash C b = .ok h := by
  rw [ScopeTables.candidateHash, hdecode]
  change orInvalid op.hash = _
  rw [hhash]
  rfl

theorem qi_decode_error (h : SignedQuaiTransaction.decode C b = .ok s) :
    ∃ e, SignedQiOperation.decode C b = .error e := by
  cases hdecode : SignedQiOperation.decode C b with
  | error e => exact ⟨e, rfl⟩
  | ok =>
    exact absurd h (SignedQiOperation.quai_decode_ne_ok
      (SignedQiOperation.decode_eq_ok_iff.mp hdecode) s)

theorem candidateHash_quai (hdecode : SignedQuaiTransaction.decode C b = .ok s)
    (hhash : s.hash = .ok h) :
    ScopeTables.candidateHash C b = .ok h := by
  obtain ⟨e, he⟩ := qi_decode_error hdecode
  rw [ScopeTables.candidateHash, he, hdecode]
  change orInvalid s.hash = _
  rw [hhash]
  rfl

theorem validateFamily_qi_iff (hdecode : SignedQiOperation.decode C b = .ok op)
    (hhash : op.hash = .ok h) :
    validateFamily C b variants = .ok () ↔
      variants.length ≤ 32 ∧ ∃ nodes, QiFamily (h, op) variants nodes := by
  rw [validateFamily, hdecode]
  simp only [validateQiFamily, eq_ok, not_lt, hhash, orInvalid, Except.mapError, ok_bind, and_true]
  exact and_congr_right fun _ => qiEdge_rule.foldlM_iff

theorem validateFamily_quai_iff (hdecode : SignedQuaiTransaction.decode C b = .ok s)
    (hhash : s.hash = .ok h) :
    validateFamily C b variants = .ok () ↔
      variants.length ≤ 32 ∧ ∃ nodes, QuaiFamily (h, s) variants nodes := by
  obtain ⟨e, he⟩ := qi_decode_error hdecode
  rw [validateFamily, he, hdecode]
  simp only [validateQuaiFamily, eq_ok, not_lt, hhash, orInvalid, Except.mapError, ok_bind, and_true]
  exact and_congr_right fun _ => quaiEdge_rule.foldlM_iff

theorem validateFamily_cases (h : validateFamily C root variants = .ok ()) : variants.length ≤ 32 ∧
      ((∃ first h₀ nodes, SignedQiOperation.decode C root = .ok first ∧ first.hash = .ok h₀ ∧
          QiFamily (h₀, first) variants nodes) ∨
        ∃ first h₀ nodes, SignedQuaiTransaction.decode C root = .ok first ∧ first.hash = .ok h₀ ∧
          QuaiFamily (h₀, first) variants nodes) := by
  have hvalid := h
  unfold validateFamily at h
  split at h
  · next first hroot =>
    simp only [validateQiFamily, eq_ok, orInvalid] at h
    obtain ⟨-, h₀, hh₀, -⟩ := h
    obtain ⟨hlength, nodes, hnodes⟩ := (validateFamily_qi_iff hroot hh₀).mp hvalid
    exact ⟨hlength, .inl ⟨first, h₀, nodes, hroot, hh₀, hnodes⟩⟩
  · simp only [validateQuaiFamily, eq_ok, orInvalid] at h
    obtain ⟨-, first, hroot, h₀, hh₀, -⟩ := h
    obtain ⟨hlength, nodes, hnodes⟩ := (validateFamily_quai_iff hroot hh₀).mp hvalid
    exact ⟨hlength, .inr ⟨first, h₀, nodes, hroot, hh₀, hnodes⟩⟩

theorem validateFamily_length (h : validateFamily C root variants = .ok ()) :
    variants.length ≤ 32 :=
  (validateFamily_cases h).1

theorem qiFamily_inputs {first : SignedQiOperation C}
    (hfamily : validateFamily C root variants = .ok ())
    (hroot : SignedQiOperation.decode C root = .ok first) {v : QuaiReplacement} (hv : v ∈ variants) :
    ∃ signed, SignedQiOperation.decode C v.payload = .ok signed ∧
      signed.transaction.inputs = first.transaction.inputs := by
  obtain ⟨-, ⟨first', h₀, nodes, hroot', -, hnodes⟩ | ⟨other, -, -, hother, -⟩⟩ :=
    validateFamily_cases hfamily
  · cases Except.ok.inj (hroot'.symm.trans hroot)
    obtain ⟨n, hn, hread, -⟩ := hnodes.decodes v hv
    have hinputs := hnodes.invariant
      (P := fun x => x.transaction.inputs = first.transaction.inputs) rfl
      (fun p x hp hx => hx.1.2.1.trans hp) n (mem_cons_of_mem _ hn)
    exact ⟨n.2, hread, hinputs⟩
  · obtain ⟨e, he⟩ := qi_decode_error hother
    cases he.symm.trans hroot

section Child

variable {payload : Bytes} {hash : Hash32} (hfamily : validateFamily C root variants = .ok ())
  (hroom : variants.length < 32)
  (hnew : ∀ b ∈ familyPayloads root variants, ScopeTables.candidateHash C b ≠ .ok hash)

include hfamily hroom hnew

/-- A family that has room takes a Qi candidate that keeps its parent's inputs and pays less. -/
theorem validateFamily_qi_child {parent signed : SignedQiOperation C}
    (hmember : ∃ b ∈ familyPayloads root variants, SignedQiOperation.decode C b = .ok parent)
    (hparent : parent.hash = .ok parentHash) (hpayload : signed.signedBytes = .ok payload)
    (hhash : signed.hash = .ok hash) (hfollows : QiFollows parent signed) :
    validateFamily C root (variants ++ [⟨parentHash, payload⟩]) = .ok () := by
  obtain ⟨-, ⟨first, h₀, nodes, hroot, hh₀, hnodes⟩ | ⟨first, h₀, nodes, hroot, hh₀, hnodes⟩⟩ :=
    validateFamily_cases hfamily
  · have hadopt := hnodes.adopt hroot hh₀ hmember hparent
      (SignedQiOperation.decode_signedBytes hpayload) hhash hfollows
      fun b hb x hx heq => hnew b hb (candidateHash_qi hx heq)
    exact (validateFamily_qi_iff hroot hh₀).mpr ⟨by simpa using hroom, hadopt⟩
  · -- in a family of account candidates no payload decodes as a Qi operation
    obtain ⟨b, hb, hdecode⟩ := hmember
    obtain ⟨x, hx⟩ := hnodes.payload_decodes hroot b hb
    obtain ⟨e, he⟩ := qi_decode_error hx
    cases he.symm.trans hdecode

/-- A family that has room takes an account candidate with only a higher gas price. -/
theorem validateFamily_quai_child {parent signed : SignedQuaiTransaction C}
    (hmember : ∃ b ∈ familyPayloads root variants, SignedQuaiTransaction.decode C b = .ok parent)
    (hparent : parent.hash = .ok parentHash) (hpayload : signed.signedBytes = .ok payload)
    (hhash : signed.hash = .ok hash) (hfollows : QuaiFollows parent signed) :
    validateFamily C root (variants ++ [⟨parentHash, payload⟩]) = .ok () := by
  obtain ⟨-, ⟨first, h₀, nodes, hroot, hh₀, hnodes⟩ | ⟨first, h₀, nodes, hroot, hh₀, hnodes⟩⟩ :=
    validateFamily_cases hfamily
  · obtain ⟨b, hb, hdecode⟩ := hmember
    obtain ⟨x, hx⟩ := hnodes.payload_decodes hroot b hb
    obtain ⟨e, he⟩ := qi_decode_error hdecode
    cases he.symm.trans hx
  · have hadopt := hnodes.adopt hroot hh₀ hmember hparent
      (SignedQuaiTransaction.decode_signedBytes hpayload) hhash hfollows
      fun b hb x hx heq => hnew b hb (candidateHash_quai hx heq)
    exact (validateFamily_quai_iff hroot hh₀).mpr ⟨by simpa using hroom, hadopt⟩

end Child

end QuaiSdk.Storage
