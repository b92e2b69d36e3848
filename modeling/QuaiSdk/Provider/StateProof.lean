import QuaiSdk.Consensus.Crypto
import QuaiSdk.Provider.Rlp

/-!
# State proofs

`state_proof.rs`: the walk of a Merkle-Patricia proof along a 32-byte path, and the account and
storage proofs it serves.  Keccak is a parameter.  One pass of the source's loop is a step; every step
that goes on uses up part of the path, so the loop ends.
-/

namespace QuaiSdk.Provider

open Result Hash32

def maxProofNodes : ℕ := 65

def maxProofNodeBytes : ℕ := 1024

/-- Keccak-256 of the RLP empty string. -/
def emptyTrieRoot : Hash32 :=
  ofNat 0x56e81f171bcc55a6ff8345e692c0f86e5b48e01b996cadc001622fb5e363b421

def nibbles (b : Bytes) : Bytes := b.flatMap fun (x : UInt8) => [x >>> 4, x &&& 0x0f]

def hash32 (b : Bytes) : Except ProofError Hash32 :=
  okOr (ofBytes b) (.malformed "expected a 32-byte hash")

/-- Where the walk goes next: a node named by hash, or one embedded in its parent. -/
inductive Next where
  | hash (expected : Hash32)
  | inline (item : Rlp.Item)

def child : Rlp.Item → Except ProofError (Option Next)
  | .bytes [] => .ok none
  | .bytes (b :: rest) => do
    let expected ← hash32 (b :: rest)
    .ok (some (.hash expected))
  | .list items => .ok (some (.inline (.list items)))

def hexPrefix : Bytes → Except ProofError (Bool × Bytes)
  | [] => .error (.malformed "empty encoded path")
  | first :: rest =>
    let flag := first >>> 4
    if 3 < flag ∨ (flag &&& 1 = 0 ∧ first &&& 0x0f ≠ 0) then
      .error (.malformed "invalid encoded path prefix")
    else .ok (decide (2 ≤ flag), (if flag &&& 1 = 1 then [first &&& 0x0f] else []) ++ nibbles rest)

/-- Where a walk stands: the path that remains, the nodes not used yet, and the next node. -/
structure Walk where
  path : Bytes
  unused : List Bytes
  next : Next

inductive Outcome where
  | goesOn (path : Bytes) (next : Next)
  | found (value : Option Bytes)

def branchNode (items : List Rlp.Item) (path : Bytes) : Except ProofError Outcome :=
  match path with
  | [] => .error (.malformed "path ends at a branch")
  | nibble :: path => do
    -- a nibble is below 16, so the seventeenth item is never taken
    let next ← child (items.getD nibble.toNat (.bytes []))
    match next with
    | some next => .ok (.goesOn path next)
    | none => .ok (.found none)

def shortNode (encoded : Bytes) (value : Rlp.Item) (path : Bytes) : Except ProofError Outcome := do
  let (leaf, front) ← hexPrefix encoded
  if leaf = true ∧ front.length ≠ path.length then
    .error (.malformed "leaf path has the wrong length")
  else if ¬front <+: path then .ok (.found none)
  else if leaf = true then
    match value with
    | .bytes value => .ok (.found (some value))
    | .list _ => .error (.malformed "leaf value is a list")
  else if front = [] ∨ front.length = path.length then
    .error (.malformed "extension node has no effect")
  else do
    let next ← child value
    let next ← okOr next (.malformed "extension to nothing")
    .ok (.goesOn (path.drop front.length) next)

def visit (node : Rlp.Item) (path : Bytes) : Except ProofError Outcome :=
  match node with
  | .bytes _ => .error (.malformed "trie node is not a list")
  | .list items =>
    if items.length = 17 then branchNode items path
    else if items.length = 2 then
      match items with
      | [.bytes encoded, value] => shortNode encoded value path
      | _ => .error (.malformed "short node has no encoded path")
    else .error (.malformed "trie node has the wrong arity")

section Keccak

variable (keccak256 : Bytes → Hash32)

def resolve (next : Next) (unused : List Bytes) : Except ProofError (Rlp.Item × List Bytes) :=
  match next with
  | .inline item => .ok (item, unused)
  | .hash expected =>
    match unused with
    | [] => .error .incomplete
    | raw :: rest =>
      if keccak256 raw ≠ expected then .error .hashMismatch
      else do
        let item ← Rlp.decode raw
        .ok (item, rest)

/-- The loop, for at most so many passes; `none` has not ended yet. -/
def walkLoop : ℕ → Walk → Option (Except ProofError (Option Bytes × List Bytes))
  | 0, _ => none
  | fuel + 1, walk =>
    match resolve keccak256 walk.next walk.unused with
    | .error e => some (.error e)
    | .ok (node, unused) =>
      match visit node walk.path with
      | .error e => some (.error e)
      | .ok (.found value) => some (.ok (value, unused))
      | .ok (.goesOn path next) => walkLoop fuel ⟨path, unused, next⟩

/-- Follow a key from a root through a proof: the leaf value, or a verified absence.  A path of 64
nibbles allows 65 passes. -/
def walk (root key : Hash32) (proof : List Bytes) : Except ProofError (Option Bytes) :=
  if maxProofNodes < proof.length ∨ ∃ node ∈ proof, maxProofNodeBytes < node.length then
    .error .tooLarge
  else if proof = [] then
    if root = emptyTrieRoot then .ok none else .error .incomplete
  else
    match walkLoop keccak256 65 ⟨nibbles key.bytes, proof, .hash root⟩ with
    | none => .error .incomplete
    | some (.error e) => .error e
    | some (.ok (value, unused)) => if unused ≠ [] then .error .unusedNodes else .ok value

structure Account where
  nonce : UInt64
  balance : U256
  storageRoot : Hash32
  codeHash : Hash32
  size : U256
  deriving DecidableEq

def accountField : Rlp.Item → Except ProofError Bytes
  | .bytes b => .ok b
  | .list _ => .error (.malformed "account field is a list")

def accountLeaf (leaf : Bytes) : Except ProofError Account := do
  let item ← Rlp.decode leaf
  match item with
  | .list [nonce, balance, storageRoot, codeHash, size] => do
    let nonce ← accountField nonce
    let nonce ← Rlp.uint nonce
    if 2 ^ 64 ≤ nonce.toNat then .error (.malformed "account nonce exceeds 64 bits")
    else do
      let balance ← accountField balance
      let balance ← Rlp.uint balance
      let storageRoot ← accountField storageRoot
      let storageRoot ← hash32 storageRoot
      let codeHash ← accountField codeHash
      let codeHash ← hash32 codeHash
      let size ← accountField size
      let size ← Rlp.uint size
      .ok ⟨UInt64.ofNat nonce.toNat, balance, storageRoot, codeHash, size⟩
  | _ => .error (.malformed "account leaf is not five fields")

def verifyAccountProof (stateRoot : Hash32) (address : QuaiAddress) (proof : List Bytes) :
    Except ProofError (Option Account) := do
  let leaf ← walk keccak256 stateRoot (keccak256 address.bytes) proof
  match leaf with
  | none => .ok none
  | some leaf => do
    let account ← accountLeaf leaf
    .ok (some account)

def storageLeaf (leaf : Bytes) : Except ProofError U256 := do
  let item ← Rlp.decode leaf
  match item with
  | .bytes (b :: rest) => Rlp.uint (b :: rest)
  | _ => .error (.malformed "storage leaf is not a nonzero integer")

def verifyStorageProof (storageRoot slot : Hash32) (proof : List Bytes) : Except ProofError U256 := do
  let leaf ← walk keccak256 storageRoot (keccak256 slot.bytes) proof
  match leaf with
  | none => .ok (U256.ofNat 0)
  | some leaf => storageLeaf leaf

end Keccak

variable {path path' : Bytes} {next : Next} {fuel : ℕ} {value : Option Bytes}

theorem branchNode_shorter {items : List Rlp.Item}
    (h : branchNode items path = .ok (.goesOn path' next)) : path'.length < path.length := by
  cases path with
  | nil => cases h
  | cons =>
    obtain ⟨next', -, h⟩ := bind_eq_ok.mp h
    cases next' with
    | none => cases h
    | some =>
      cases h
      exact Nat.lt_succ_self _

theorem shortNode_shorter {encoded : Bytes} {value : Rlp.Item}
    (h : shortNode encoded value path = .ok (.goesOn path' next)) : path'.length < path.length := by
  obtain ⟨⟨leaf, front⟩, -, h⟩ := bind_eq_ok.mp h
  rw [ite_error_eq_ok] at h
  obtain ⟨-, h⟩ := h
  split at h
  · cases h
  · rename_i hfront
    split at h
    · cases value with
      | bytes | list => cases h
    · rw [ite_error_eq_ok, not_or] at h
      obtain ⟨⟨hnil, -⟩, h⟩ := h
      obtain ⟨next', -, h⟩ := bind_eq_ok.mp h
      obtain ⟨next'', -, h⟩ := bind_eq_ok.mp h
      cases h
      have hlength := (not_not.mp hfront).length_le
      have hpos := List.length_pos_iff.mpr hnil
      rw [List.length_drop]
      omega

/-- A node that the walk passes uses up part of the path. -/
theorem visit_shorter {node : Rlp.Item} (h : visit node path = .ok (.goesOn path' next)) :
    path'.length < path.length := by
  unfold visit at h
  split at h
  · cases h
  · split at h
    · exact branchNode_shorter h
    · split at h
      · split at h
        · exact shortNode_shorter h
        · cases h
      · cases h

variable {keccak256 : Bytes → Hash32}

theorem walkLoop_ends {walk : Walk} (h : walk.path.length < fuel) :
    ∃ result, walkLoop keccak256 fuel walk = some result := by
  induction fuel generalizing walk with
  | zero => exact absurd h (Nat.not_lt_zero _)
  | succ fuel ih =>
    rw [walkLoop]
    cases resolve keccak256 walk.next walk.unused with
    | error => exact ⟨_, rfl⟩
    | ok x =>
      obtain ⟨node, unused⟩ := x
      dsimp only
      cases hvisit : visit node walk.path with
      | error => exact ⟨_, rfl⟩
      | ok outcome =>
        cases outcome with
        | found => exact ⟨_, rfl⟩
        | goesOn path =>
          have hshorter := visit_shorter hvisit
          exact ih (show path.length < fuel by omega)

theorem length_nibbles (b : Bytes) : (nibbles b).length = 2 * b.length := by
  induction b with
  | nil => rfl
  | cons x b ih =>
    simp only [nibbles, List.flatMap_cons, List.length_append, List.length_cons,
      List.length_nil] at ih ⊢
    omega

theorem resolve_binds {u v : List Bytes} {node node' : Rlp.Item} {rest rest' : List Bytes}
    (hinj : Set.InjOn keccak256 {b | b ∈ u ∨ b ∈ v})
    (h : resolve keccak256 next u = .ok (node, rest))
    (h' : resolve keccak256 next v = .ok (node', rest')) :
    node = node' ∧ ∃ used, u = used ++ rest ∧ v = used ++ rest' := by
  cases next with
  | inline =>
    cases h
    cases h'
    exact ⟨rfl, [], rfl, rfl⟩
  | hash =>
    cases u with
    | nil => cases h
    | cons raw =>
      cases v with
      | nil => cases h'
      | cons raw' =>
        rw [resolve, ite_error_eq_ok, not_not] at h h'
        obtain ⟨hraw, h⟩ := h
        obtain ⟨hraw', h'⟩ := h'
        have hsame : raw = raw' := hinj (.inl List.mem_cons_self) (.inr List.mem_cons_self)
          (hraw.trans hraw'.symm)
        subst hsame
        obtain ⟨item, hdecode, h⟩ := bind_eq_ok.mp h
        obtain ⟨item', hdecode', h'⟩ := bind_eq_ok.mp h'
        rw [hdecode, Except.ok.injEq] at hdecode'
        subst hdecode'
        cases h
        cases h'
        exact ⟨rfl, [raw], rfl, rfl⟩

/-- Two walks from one place that both end in an answer use the same nodes for the same answer. -/
theorem walkLoop_binds {u v : List Bytes} {value' : Option Bytes} {rest rest' : List Bytes}
    (hinj : Set.InjOn keccak256 {b | b ∈ u ∨ b ∈ v})
    (h : walkLoop keccak256 fuel ⟨path, u, next⟩ = some (.ok (value, rest)))
    (h' : walkLoop keccak256 fuel ⟨path, v, next⟩ = some (.ok (value', rest'))) :
    value = value' ∧ ∃ used, u = used ++ rest ∧ v = used ++ rest' := by
  induction fuel generalizing path next u v with
  | zero => cases h
  | succ fuel ih =>
    rw [walkLoop] at h h'
    cases hu : resolve keccak256 next u with
    | error =>
      rw [hu] at h
      cases h
    | ok x =>
      cases hv : resolve keccak256 next v with
      | error =>
        rw [hv] at h'
        cases h'
      | ok y =>
        obtain ⟨node, u'⟩ := x
        obtain ⟨node', v'⟩ := y
        obtain ⟨rfl, used, rfl, rfl⟩ := resolve_binds hinj hu hv
        rw [hu] at h
        rw [hv] at h'
        dsimp only at h h'
        cases hvisit : visit node path with
        | error =>
          rw [hvisit] at h
          cases h
        | ok outcome =>
          rw [hvisit] at h h'
          cases outcome with
          | found =>
            cases h
            cases h'
            exact ⟨rfl, used, rfl, rfl⟩
          | goesOn =>
            have hinj' : Set.InjOn keccak256 {b | b ∈ u' ∨ b ∈ v'} := by
              apply hinj.mono
              intro b hb
              exact hb.imp (List.mem_append_right used) (List.mem_append_right used)
            obtain ⟨hvalue, used', rfl, rfl⟩ := ih hinj' h h'
            exact ⟨hvalue, used ++ used', by simp, by simp⟩

/-- An accepted proof is the empty one of the empty trie, or leads the loop to its value. -/
theorem walk_eq_ok {root key : Hash32} {proof : List Bytes} :
    walk keccak256 root key proof = .ok value ↔
      ¬(maxProofNodes < proof.length ∨ ∃ node ∈ proof, maxProofNodeBytes < node.length) ∧
      ((proof = [] ∧ root = emptyTrieRoot ∧ value = none) ∨
        (proof ≠ [] ∧ walkLoop keccak256 65 ⟨nibbles key.bytes, proof, .hash root⟩ =
          some (.ok (value, [])))) := by
  unfold walk
  rw [ite_error_eq_ok]
  apply and_congr_right
  intro _
  by_cases hproof : proof = []
  · by_cases hroot : root = emptyTrieRoot
    · simp [hproof, hroot, eq_comm]
    · simp [hproof, hroot]
  · cases hloop : walkLoop keccak256 65 ⟨nibbles key.bytes, proof, .hash root⟩ with
    | none => simp [hproof]
    | some result =>
      cases result with
      | error => simp [hproof]
      | ok x =>
        obtain ⟨found, unused⟩ := x
        by_cases hunused : unused = []
        · simp [hproof, hunused]
        · simp [hproof, hunused]

/-- No node is the empty trie, so only the empty proof answers for its root. -/
theorem walkLoop_emptyTrie {proof : List Bytes} {result : Option Bytes × List Bytes}
    (hempty : keccak256 [0x80] = emptyTrieRoot)
    (hinj : Set.InjOn keccak256 {b | b ∈ proof ∨ b = [0x80]}) :
    walkLoop keccak256 fuel ⟨path, proof, .hash emptyTrieRoot⟩ ≠ some (.ok result) := by
  intro h
  cases fuel with
  | zero => cases h
  | succ =>
    rw [walkLoop] at h
    cases proof with
    | nil => cases h
    | cons raw =>
      by_cases hraw : keccak256 raw = emptyTrieRoot
      · have hsame : raw = [0x80] := hinj (.inl List.mem_cons_self) (.inr rfl)
          (hraw.trans hempty.symm)
        subst hsame
        rw [resolve, if_neg (not_not.mpr hempty)] at h
        cases h
      · rw [resolve, if_pos hraw] at h
        cases h

/-- Under one root and key, two accepted proofs are the same proof of the same answer. -/
theorem walk_binds {root key : Hash32} {p q : List Bytes} {value' : Option Bytes}
    (hempty : keccak256 [0x80] = emptyTrieRoot)
    (hinj : Set.InjOn keccak256 {b | b ∈ p ∨ b ∈ q ∨ b = [0x80]})
    (h : walk keccak256 root key p = .ok value) (h' : walk keccak256 root key q = .ok value') :
    value = value' ∧ p = q := by
  obtain ⟨-, hp⟩ := walk_eq_ok.mp h
  obtain ⟨-, hq⟩ := walk_eq_ok.mp h'
  have hinjp : Set.InjOn keccak256 {b | b ∈ p ∨ b = [0x80]} :=
    hinj.mono fun b hb => hb.imp_right .inr
  have hinjq : Set.InjOn keccak256 {b | b ∈ q ∨ b = [0x80]} := hinj.mono fun b hb => .inr hb
  rcases hp with ⟨rfl, hroot, rfl⟩ | ⟨hp, hloop⟩
  · rcases hq with ⟨rfl, -, rfl⟩ | ⟨hq, hloop'⟩
    · exact ⟨rfl, rfl⟩
    · rw [hroot] at hloop'
      exact (walkLoop_emptyTrie hempty hinjq hloop').elim
  · rcases hq with ⟨rfl, hroot, rfl⟩ | ⟨hq, hloop'⟩
    · rw [hroot] at hloop
      exact (walkLoop_emptyTrie hempty hinjp hloop).elim
    · have hinj' : Set.InjOn keccak256 {b | b ∈ p ∨ b ∈ q} :=
        hinj.mono fun b hb => hb.imp_right .inl
      obtain ⟨hvalue, used, hp', hq'⟩ := walkLoop_binds hinj' hloop hloop'
      exact ⟨hvalue, hp'.trans hq'.symm⟩

/-- State proofs bind: where Keccak does not collide on the nodes of two proofs, both accepted under
one root and key are one proof of one answer, and so are the accounts and the slots they prove.  The
loop ends on every input, and so does the decoder's. -/
theorem state_proofs_bind (keccak256 : Bytes → Hash32)
    (hempty : keccak256 [0x80] = emptyTrieRoot) :
    (∀ (root key : Hash32) (p q : List Bytes) (value value' : Option Bytes),
      Set.InjOn keccak256 {b | b ∈ p ∨ b ∈ q ∨ b = [0x80]} →
      walk keccak256 root key p = .ok value → walk keccak256 root key q = .ok value' →
        value = value' ∧ p = q) ∧
    (∀ (root : Hash32) (address : QuaiAddress) (p q : List Bytes) (account account' : Option Account),
      Set.InjOn keccak256 {b | b ∈ p ∨ b ∈ q ∨ b = [0x80]} →
      verifyAccountProof keccak256 root address p = .ok account →
      verifyAccountProof keccak256 root address q = .ok account' → account = account' ∧ p = q) ∧
    (∀ (root slot : Hash32) (p q : List Bytes) (value value' : U256),
      Set.InjOn keccak256 {b | b ∈ p ∨ b ∈ q ∨ b = [0x80]} →
      verifyStorageProof keccak256 root slot p = .ok value →
      verifyStorageProof keccak256 root slot q = .ok value' → value = value' ∧ p = q) ∧
    (∀ (root key : Hash32) (proof : List Bytes), ∃ result,
      walkLoop keccak256 65 ⟨nibbles key.bytes, proof, .hash root⟩ = some result) ∧
    ∀ (levels fuel : ℕ) (content : Bytes), content.length ≤ fuel →
      Rlp.items (Rlp.item levels) fuel content =
        Rlp.items (Rlp.item levels) content.length content := by
  refine ⟨?_, ?_, ?_, ?_, ?_⟩
  · intro root key p q value value' hinj h h'
    exact walk_binds hempty hinj h h'
  · intro root address p q account account' hinj h h'
    obtain ⟨leaf, hwalk, hleaf⟩ := bind_eq_ok.mp h
    obtain ⟨leaf', hwalk', hleaf'⟩ := bind_eq_ok.mp h'
    obtain ⟨rfl, rfl⟩ := walk_binds hempty hinj hwalk hwalk'
    rw [hleaf, Except.ok.injEq] at hleaf'
    exact ⟨hleaf', rfl⟩
  · intro root slot p q value value' hinj h h'
    obtain ⟨leaf, hwalk, hleaf⟩ := bind_eq_ok.mp h
    obtain ⟨leaf', hwalk', hleaf'⟩ := bind_eq_ok.mp h'
    obtain ⟨rfl, rfl⟩ := walk_binds hempty hinj hwalk hwalk'
    rw [hleaf, Except.ok.injEq] at hleaf'
    exact ⟨hleaf', rfl⟩
  · intro root key proof
    apply walkLoop_ends
    rw [length_nibbles, key.size]
    decide
  · intro levels fuel content hfuel
    exact Rlp.items_fuel (Rlp.item_consumes levels) hfuel le_rfl

def slotLeaf : Bytes := BigEndian.toBytes 36
  0xe3a120290decd9548b62a8d60345a988386fc84ba6bc95484008f6362f93160ef3e56305

def slotRoot : Hash32 :=
  ofNat 0xa81d6253cfe982c46684c6f10f9e860e65959f04914b84358281b6cdef63a02d

def slotKeccak (b : Bytes) : Hash32 :=
  if b = [0x80] then emptyTrieRoot
  else if b = zero.bytes then
    ofNat 0x290decd9548b62a8d60345a988386fc84ba6bc95484008f6362f93160ef3e563
  else if b = slotLeaf then slotRoot
  else zero

/-- The leaf proves five, and nothing else proves anything for the slot. -/
theorem state_proofs_bind_slot :
    verifyStorageProof slotKeccak slotRoot zero [slotLeaf] = .ok (U256.ofNat 5) ∧
    ∀ proof value, Set.InjOn slotKeccak {b | b ∈ [slotLeaf] ∨ b ∈ proof ∨ b = [0x80]} →
      verifyStorageProof slotKeccak slotRoot zero proof = .ok value →
        U256.ofNat 5 = value ∧ [slotLeaf] = proof := by
  have hslot : verifyStorageProof slotKeccak slotRoot zero [slotLeaf] = .ok (U256.ofNat 5) := by
    decide +kernel
  obtain ⟨-, -, hstorage, -⟩ := state_proofs_bind slotKeccak (by decide +kernel)
  exact ⟨hslot, fun proof value hinj h =>
    hstorage slotRoot zero [slotLeaf] proof _ value hinj hslot h⟩

end QuaiSdk.Provider
