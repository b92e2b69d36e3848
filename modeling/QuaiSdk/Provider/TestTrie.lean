import QuaiSdk.Provider.StateProof

/-!
# Honest tries

`test_trie.rs`: the trie a node keeps over 32-byte paths, with the proof it sends for any of them.
Nodes that encode below 32 bytes are embedded in their parent, shared fronts become extensions, and
branches hold no value.
-/

namespace QuaiSdk.Provider

open Result

namespace TestTrie

inductive Node where
  | leaf (path value : Bytes)
  | extension (path : Bytes) (child : Node)
  | branch (children : Fin 16 → Option Node)

def pack : Bytes → Bytes
  | high :: low :: rest => (high <<< 4 ||| low) :: pack rest
  | _ => []

/-- `hex_prefix` of the builder. -/
def compactPath (path : Bytes) (leaf : Bool) : Bytes :=
  let flag : UInt8 := if leaf = true then 2 else 0
  match path with
  | [] => [flag <<< 4]
  | nibble :: rest =>
    if path.length % 2 = 1 then ((flag + 1) <<< 4 ||| nibble) :: pack rest
    else (flag <<< 4) :: pack path

section Keccak

variable (keccak256 : Bytes → Hash32)

def embed (encoded : Bytes) : Bytes :=
  if encoded.length < 32 then encoded else Rlp.writeBytes (keccak256 encoded).bytes

mutual

def encode : Node → Bytes
  | .leaf path value =>
    Rlp.writeList [Rlp.writeBytes (compactPath path true), Rlp.writeBytes value]
  | .extension path child =>
    Rlp.writeList [Rlp.writeBytes (compactPath path false), embed keccak256 (encode child)]
  | .branch children =>
    Rlp.writeList ((List.finRange 16).map (fun i => reference (children i)) ++ [[0x80]])

def reference : Option Node → Bytes
  | none => [0x80]
  | some node => embed keccak256 (encode node)

end

def sent (node : Node) : List Bytes :=
  if 32 ≤ (encode keccak256 node).length then [encode keccak256 node] else []

/-- The child that a branch holds for a path. -/
def firstNibble (path : Bytes) : Fin 16 := Fin.ofNat 16 (path.headD 0).toNat

mutual

def proveBelow : Node → Bytes → List Bytes
  | .leaf _ _, _ => []
  | .extension front child, path =>
    if front <+: path then sent keccak256 child ++ proveBelow child (path.drop front.length) else []
  | .branch children, path => proveChild (children (firstNibble path)) path.tail

def proveChild : Option Node → Bytes → List Bytes
  | none, _ => []
  | some node, path => sent keccak256 node ++ proveBelow node path

end

/-- `TestTrie::root`. -/
def rootHash : Option Node → Hash32
  | none => emptyTrieRoot
  | some node => keccak256 (encode keccak256 node)

/-- `TestTrie::prove`: root first; the root is always sent. -/
def prove (root : Option Node) (key : Hash32) : List Bytes :=
  match root with
  | none => []
  | some node => encode keccak256 node :: proveBelow keccak256 node (nibbles key.bytes)

end Keccak

def sharedLength : Bytes → Bytes → ℕ
  | a :: path, b :: path' => if a = b then sharedLength path path' + 1 else 0
  | _, _ => 0

/-- From sorted, distinct paths that agree on their first `depth` nibbles.  Every call goes at least
one nibble deeper, so 65 calls are enough for a path. -/
def build : ℕ → List (Bytes × Bytes) → ℕ → Node
  | 0, _, _ => .leaf [] []
  | fuel + 1, items, depth =>
    match items with
    | [(path, value)] => .leaf (path.drop depth) value
    | _ =>
      let first := (items.headD ([], [])).1
      let last := (items.getLastD ([], [])).1
      let shared := sharedLength (first.drop depth) (last.drop depth)
      if 0 < shared then
        .extension ((first.drop depth).take shared) (build fuel items (depth + shared))
      else
        .branch fun nibble =>
          let group := items.filter fun item => (item.1.getD depth 0).toNat = nibble.val
          if group = [] then none else some (build fuel group (depth + 1))

def insertEntry (items : List (Bytes × Bytes)) (entry : Hash32 × Bytes) : List (Bytes × Bytes) :=
  let path := nibbles entry.1.bytes
  if path ∈ items.map Prod.fst then
    items.map fun item => if item.1 = path then (path, entry.2) else item
  else items ++ [(path, entry.2)]

/-- `TestTrie::from_paths`.  Paths have one length, so their byte order is that of the numbers they
spell. -/
def fromPaths (entries : List (Hash32 × Bytes)) : Option Node :=
  let items := entries.foldl insertEntry []
  if items = [] then none
  else some (build 65
    (items.insertionSort fun a b => BigEndian.value a.1 ≤ BigEndian.value b.1) 0)

end TestTrie

end QuaiSdk.Provider
