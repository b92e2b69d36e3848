import QuaiSdk.Storage.Schema

/-!
# Replacement families

`validate_family`: candidates that share the claims of one signed root.  Each edge names a parent
seen before it; account candidates may only raise the gas price, Qi candidates may only lower the
output total.
-/

namespace QuaiSdk.Storage

open Result Wallet StorageError

variable {C : Crypto}

-- compressed encodings identify keys
instance : DecidableEq C.PublicKey := fun a b =>
  decidable_of_iff (C.toCompressed a = C.toCompressed b) C.toCompressed_injective.eq_iff

instance : DecidableEq (QiInput C) := fun a b =>
  decidable_of_iff (a.previousOutput = b.previousOutput ∧ a.publicKey = b.publicKey)
    ⟨fun h => by cases a; cases b; cases h.1; cases h.2; rfl, fun h => h ▸ ⟨rfl, rfl⟩⟩

/-- Any decoding failure is `Invalid` to the store. -/
def orInvalid {α : Type} (x : Except TransactionError α) : Except StorageError α :=
  x.mapError fun _ => invalid

def quaiEdge (known : Table Hash32 (SignedQuaiTransaction C)) (variant : QuaiReplacement) :
    Except StorageError (Table Hash32 (SignedQuaiTransaction C)) := do
  let parent ← okOr (known.lookup variant.parent) invalid
  let signed ← orInvalid (SignedQuaiTransaction.decode C variant.payload)
  if signed.sender ≠ parent.sender ∨
      signed.transaction.gasPrice.toNat ≤ parent.transaction.gasPrice.toNat ∨
      signed.transaction ≠ { parent.transaction with gasPrice := signed.transaction.gasPrice } then
    .error .invalid
  else do
    let hash ← orInvalid signed.hash
    known.insertNew invalid hash signed

def outputValue (t : QiTransaction C) : Except StorageError ℕ :=
  t.outputs.foldlM (fun sum output =>
    okOr (checkedAdd sum output.denomination.value) invalid) 0

def qiEdge (known : Table Hash32 (SignedQiOperation C)) (variant : QuaiReplacement) :
    Except StorageError (Table Hash32 (SignedQiOperation C)) := do
  let parent ← okOr (known.lookup variant.parent) invalid
  let signed ← orInvalid (SignedQiOperation.decode C variant.payload)
  let old := parent.transaction
  let new := signed.transaction
  if new.chainId ≠ old.chainId ∨ new.inputs ≠ old.inputs ∨ new.data ≠ old.data then .error .invalid
  else do
    let value ← outputValue new
    let bound ← outputValue old
    if bound ≤ value then .error .invalid
    else do
      let hash ← orInvalid signed.hash
      known.insertNew invalid hash signed

def validateQiFamily (root : SignedQiOperation C) (variants : List QuaiReplacement) :
    Except StorageError Unit :=
  if 32 < variants.length then .error .invalid
  else do
    let hash ← orInvalid root.hash
    let _ ← variants.foldlM qiEdge (AList.singleton hash root)
    .ok ()

def validateQuaiFamily (root : SignedQuaiTransaction C) (variants : List QuaiReplacement) :
    Except StorageError Unit := do
  let hash ← orInvalid root.hash
  let _ ← variants.foldlM quaiEdge (AList.singleton hash root)
  .ok ()

def validateFamily (C : Crypto) (root : Bytes) (variants : List QuaiReplacement) :
    Except StorageError Unit :=
  match SignedQiOperation.decode C root with
  | .ok root => validateQiFamily root variants
  | .error _ =>
    if 32 < variants.length then .error .invalid
    else do
      let root ← orInvalid (SignedQuaiTransaction.decode C root)
      validateQuaiFamily root variants

end QuaiSdk.Storage
