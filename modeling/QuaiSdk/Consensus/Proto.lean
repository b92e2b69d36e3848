import QuaiSdk.Lib.Wire
import QuaiSdk.Primitives

/-!
# Raw protobuf messages

`proto.rs`: the unvalidated wire messages.  Every message writes its fields in ascending tag order,
merges repeated occurrences as prost does and skips unknown tags; a known tag with another wire type
is refused.
-/

namespace QuaiSdk.Proto

open Wire

def u32 (n : UInt32) : Value := .varint n.toNat

def u64 (n : UInt64) : Value := .varint n.toNat

structure Hash where
  value : Bytes
  deriving DecidableEq

def hash : Message Hash where
  default := ⟨[]⟩
  fields h := implicitBytes 1 h.value
  merge h f := match f.tag, f.value with
    | 1, .bytes b => some { h with value := b }
    | 1, _ => none
    | _, _ => some h

structure AccessTuple where
  address : Bytes
  storageKey : List Hash
  deriving DecidableEq

def accessTuple : Message AccessTuple where
  default := ⟨[], []⟩
  fields a := [implicitBytes 1 a.address, repeated 2 hash a.storageKey].flatten
  merge a f := match f.tag, f.value with
    | 1, .bytes b => some { a with address := b }
    | 2, .bytes b => (hash.decode b).map fun h => { a with storageKey := a.storageKey ++ [h] }
    | 1, _ | 2, _ => none
    | _, _ => some a

structure AccessList where
  accessTuples : List AccessTuple
  deriving DecidableEq

def accessList : Message AccessList where
  default := ⟨[]⟩
  fields l := repeated 1 accessTuple l.accessTuples
  merge l f := match f.tag, f.value with
    | 1, .bytes b => (accessTuple.decode b).map fun a => ⟨l.accessTuples ++ [a]⟩
    | 1, _ => none
    | _, _ => some l

structure OutPoint where
  hash : Option Hash
  index : Option UInt32
  deriving DecidableEq

def outPoint : Message OutPoint where
  default := ⟨none, none⟩
  fields o := [optional 1 (o.hash.map fun h => .bytes (hash.encode h)),
    optional 2 (o.index.map u32)].flatten
  merge o f := match f.tag, f.value with
    | 1, .bytes b =>
      (hash.mergeBytes (o.hash.getD hash.default) b).map fun h => { o with hash := some h }
    | 2, .varint n => some { o with index := some (UInt32.ofNat n) }
    | 1, _ | 2, _ => none
    | _, _ => some o

structure Input where
  previousOutPoint : Option OutPoint
  pubKey : Option Bytes
  deriving DecidableEq

def input : Message Input where
  default := ⟨none, none⟩
  fields i := [optional 1 (i.previousOutPoint.map fun o => .bytes (outPoint.encode o)),
    optional 2 (i.pubKey.map .bytes)].flatten
  merge i f := match f.tag, f.value with
    | 1, .bytes b => (outPoint.mergeBytes (i.previousOutPoint.getD outPoint.default) b).map
        fun o => { i with previousOutPoint := some o }
    | 2, .bytes b => some { i with pubKey := some b }
    | 1, _ | 2, _ => none
    | _, _ => some i

structure Inputs where
  txIns : List Input
  deriving DecidableEq

def inputs : Message Inputs where
  default := ⟨[]⟩
  fields l := repeated 1 input l.txIns
  merge l f := match f.tag, f.value with
    | 1, .bytes b => (input.decode b).map fun i => ⟨l.txIns ++ [i]⟩
    | 1, _ => none
    | _, _ => some l

structure Output where
  denomination : Option UInt32
  address : Option Bytes
  lock : Option Bytes
  deriving DecidableEq

def output : Message Output where
  default := ⟨none, none, none⟩
  fields o := [optional 1 (o.denomination.map u32), optional 2 (o.address.map .bytes),
    optional 3 (o.lock.map .bytes)].flatten
  merge o f := match f.tag, f.value with
    | 1, .varint n => some { o with denomination := some (UInt32.ofNat n) }
    | 2, .bytes b => some { o with address := some b }
    | 3, .bytes b => some { o with lock := some b }
    | 1, _ | 2, _ | 3, _ => none
    | _, _ => some o

structure Outputs where
  txOuts : List Output
  deriving DecidableEq

def outputs : Message Outputs where
  default := ⟨[]⟩
  fields l := repeated 1 output l.txOuts
  merge l f := match f.tag, f.value with
    | 1, .bytes b => (output.decode b).map fun o => ⟨l.txOuts ++ [o]⟩
    | 1, _ => none
    | _, _ => some l

/-- Raw transaction fields; presence and transaction kind require validation. -/
structure Transaction where
  type : Option UInt64
  recipient : Option Bytes
  nonce : Option UInt64
  value : Option Bytes
  gas : Option UInt64
  data : Option Bytes
  chainId : Option Bytes
  gasPrice : Option Bytes
  accessList : Option AccessList
  v : Option Bytes
  r : Option Bytes
  s : Option Bytes
  originatingTxHash : Option Hash
  etxIndex : Option UInt32
  txIns : Option Inputs
  txOuts : Option Outputs
  signature : Option Bytes
  etxSender : Option Bytes
  parentHash : Option Hash
  mixHash : Option Hash
  workNonce : Option UInt64
  etxType : Option UInt64
  deriving DecidableEq

/-- `Default::default()`. -/
def Transaction.blank : Transaction :=
  ⟨none, none, none, none, none, none, none, none, none, none, none, none, none, none, none, none,
    none, none, none, none, none, none⟩

def transactionGroups (t : Transaction) : List (List Field) :=
  [optional 1 (t.type.map u64), optional 2 (t.recipient.map .bytes),
    optional 3 (t.nonce.map u64), optional 4 (t.value.map .bytes), optional 5 (t.gas.map u64),
    optional 6 (t.data.map .bytes), optional 7 (t.chainId.map .bytes),
    optional 8 (t.gasPrice.map .bytes),
    optional 9 (t.accessList.map fun l => .bytes (accessList.encode l)),
    optional 10 (t.v.map .bytes), optional 11 (t.r.map .bytes), optional 12 (t.s.map .bytes),
    optional 13 (t.originatingTxHash.map fun h => .bytes (hash.encode h)),
    optional 14 (t.etxIndex.map u32),
    optional 15 (t.txIns.map fun l => .bytes (inputs.encode l)),
    optional 16 (t.txOuts.map fun l => .bytes (outputs.encode l)),
    optional 17 (t.signature.map .bytes), optional 18 (t.etxSender.map .bytes),
    optional 19 (t.parentHash.map fun h => .bytes (hash.encode h)),
    optional 20 (t.mixHash.map fun h => .bytes (hash.encode h)),
    optional 21 (t.workNonce.map u64), optional 22 (t.etxType.map u64)]

def mergeInto {α : Type} (M : Message α) (slot : Option α) (b : Bytes) : Option α :=
  M.mergeBytes (slot.getD M.default) b

def transaction : Message Transaction where
  default := Transaction.blank
  fields t := (transactionGroups t).flatten
  merge t f := match f.tag, f.value with
    | 1, .varint n => some { t with type := some (UInt64.ofNat n) }
    | 2, .bytes b => some { t with recipient := some b }
    | 3, .varint n => some { t with nonce := some (UInt64.ofNat n) }
    | 4, .bytes b => some { t with value := some b }
    | 5, .varint n => some { t with gas := some (UInt64.ofNat n) }
    | 6, .bytes b => some { t with data := some b }
    | 7, .bytes b => some { t with chainId := some b }
    | 8, .bytes b => some { t with gasPrice := some b }
    | 9, .bytes b => (mergeInto accessList t.accessList b).map
        fun l => { t with accessList := some l }
    | 10, .bytes b => some { t with v := some b }
    | 11, .bytes b => some { t with r := some b }
    | 12, .bytes b => some { t with s := some b }
    | 13, .bytes b => (mergeInto hash t.originatingTxHash b).map
        fun h => { t with originatingTxHash := some h }
    | 14, .varint n => some { t with etxIndex := some (UInt32.ofNat n) }
    | 15, .bytes b => (mergeInto inputs t.txIns b).map fun l => { t with txIns := some l }
    | 16, .bytes b => (mergeInto outputs t.txOuts b).map fun l => { t with txOuts := some l }
    | 17, .bytes b => some { t with signature := some b }
    | 18, .bytes b => some { t with etxSender := some b }
    | 19, .bytes b => (mergeInto hash t.parentHash b).map fun h => { t with parentHash := some h }
    | 20, .bytes b => (mergeInto hash t.mixHash b).map fun h => { t with mixHash := some h }
    | 21, .varint n => some { t with workNonce := some (UInt64.ofNat n) }
    | 22, .varint n => some { t with etxType := some (UInt64.ofNat n) }
    | tag, _ => if 1 ≤ tag ∧ tag ≤ 22 then none else some t

end QuaiSdk.Proto
