import QuaiSdk.Lib.Run
import QuaiSdk.Sdk.QiPrepare

/-!
# Change pools in use

One opened store with its live pools and prepared objects.  Callers allocate pools, prepare payments
from them, sign or reject what was prepared, and release what is left; in between they refresh the
wallet's metadata and snapshot, without which nothing can be prepared.  Objects that a call consumes
leave the state whether or not it succeeds.
-/

namespace QuaiSdk

def SignedQiOperation.addresses {C : Crypto} (op : SignedQiOperation C) : List Address :=
  op.transaction.outputs.map QiOutput.address ++
    match op with
    | .transfer _ => []
    | .conversion signed => [signed.transaction.intent.refund.address]
    | .wrapping signed => [signed.transaction.intent.ownerContract.address]

namespace Sdk

open Result Wallet Storage

variable {W : HdCrypto}

def QiSpecialTransaction.dataAddress {C : Crypto} : QiSpecialTransaction C → Address
  | conversion c => c.intent.refund.address
  | wrapping w => w.intent.ownerContract.address

def QiSpecialTransaction.addresses {C : Crypto} (t : QiSpecialTransaction C) : List Address :=
  t.transaction.outputs.map QiOutput.address ++ [t.dataAddress]

inductive Prepared (W : HdCrypto) where
  | transfer (prepared : PreparedQiTransaction W)
  | special (prepared : PreparedQiOperation W)

namespace Prepared

def id : Prepared W → ReservationId
  | transfer p => p.id
  | special p => p.id

/-- `reclaim` or `reclaim_operation`. -/
def reclaim (store : StoreHandle) (pool : QiChangePool W) (prepared : Prepared W)
    (t : ScopeTables) : Except QiError (QiChangePool W × ScopeTables) :=
  match prepared with
  | transfer p => pool.reclaim store p t
  | special p => pool.reclaimOperation store p t

/-- `sign` or `sign_special`, for the rows it leaves. -/
def sign (s : QiSession W) (prepared : Prepared W) (signature : W.SchnorrSignature)
    (t : ScopeTables) : Except QiError ScopeTables :=
  match prepared with
  | transfer p => (s.sign p signature t).map Prod.snd
  | special p => (s.signSpecial p signature t).map Prod.snd

end Prepared

inductive Refresh where
  | importMetadata (expected : ℕ) (addresses : List PublicAddress)
  | commitDiscovery (expected : ℕ) (reports : List DiscoveryReport)
  | replaceSnapshot (snapshot : Snapshot)

def Refresh.exec (W : HdCrypto) (scope : NetworkScope) (t : ScopeTables) :
    Refresh → Except StorageError ScopeTables
  | importMetadata expected addresses => (t.importMetadata W scope expected addresses).map Prod.snd
  | commitDiscovery expected reports => (t.commitDiscovery W scope expected reports).map Prod.snd
  | replaceSnapshot snapshot => (t.replaceSnapshot scope snapshot).map Prod.snd

/-- Live objects are named by their position; a prepare names its pool and carries the node's answers
to its two possible attempts. -/
inductive PoolAction (W : HdCrypto) where
  | allocate (account : AccountPublic W) (count attempts : ℕ) (cancelled : ℕ → ℕ → Bool)
  | prepare (pool : ℕ) (first second : Provider W.toCrypto) (id : ReservationId)
      (intent : QiIntent) (policy : QiPolicy)
  | prepareCrossZone (pool : ℕ) (first second : Provider W.toCrypto) (id : ReservationId)
      (intent : QiIntent) (policy : QiPolicy)
  | prepareSpecial (pool : ℕ) (first second : Provider W.toCrypto) (id : ReservationId)
      (amount : ℕ) (intent : QiSpecialIntent) (mode : QiSession.FeeMode) (policy : QiPolicy)
  | prepareSweep (pool : ℕ) (first second : Provider W.toCrypto) (id : ReservationId)
      (mode : SweepMode) (policy : QiPolicy)
  | sign (prepared : ℕ) (signature : W.SchnorrSignature)
  | reclaim (pool prepared : ℕ)
  | release (pool : ℕ)
  | dropPool (pool : ℕ)
  | discard (prepared : ℕ)
  | refresh (call : Refresh)

structure PoolState (W : HdCrypto) where
  tables : ScopeTables
  pools : List (QiChangePool W)
  prepared : List (Prepared W)

namespace PoolState

def initial (W : HdCrypto) : PoolState W := ⟨.empty, [], []⟩

/-- This handle is the only writer: nothing is committed between two accesses of an attempt. -/
def attempt (p : Provider W.toCrypto) : Attempt W := ⟨p, fun _ t => t⟩

/-- A prepare borrows the pool it names; whatever it returns, the rows and the pool are as it left
them. -/
def freeze (σ : PoolState W) (k : ℕ) (prepare : Method QiError (Workspace W) (Prepared W)) :
    PoolState W :=
  match σ.pools[k]? with
  | none => σ
  | some pool =>
    match prepare ⟨σ.tables, pool⟩ with
    | (.ok prepared, w) => ⟨w.tables, σ.pools.set k w.pool, σ.prepared ++ [prepared]⟩
    | (.error _, w) => { σ with tables := w.tables, pools := σ.pools.set k w.pool }

def reclaimAt (store : StoreHandle) (σ : PoolState W) (k j : ℕ) : PoolState W :=
  match σ.pools[k]?, σ.prepared[j]? with
  | some pool, some prepared =>
    match prepared.reclaim store pool σ.tables with
    | .ok (pool, t) => ⟨t, σ.pools.set k pool, σ.prepared.eraseIdx j⟩
    | .error _ => { σ with prepared := σ.prepared.eraseIdx j }
  | _, _ => σ

def releaseAt (store : StoreHandle) (σ : PoolState W) (k : ℕ) : PoolState W :=
  match σ.pools[k]? with
  | none => σ
  | some pool =>
    { σ with
      tables := (pool.release store σ.tables).toOption.getD σ.tables
      pools := σ.pools.eraseIdx k }

def signAt (s : QiSession W) (σ : PoolState W) (j : ℕ) (signature : W.SchnorrSignature) :
    PoolState W :=
  match σ.prepared[j]? with
  | none => σ
  | some prepared =>
    { σ with tables := (prepared.sign s signature σ.tables).toOption.getD σ.tables }

def as {α : Type} (wrap : α → Prepared W) (x : Method QiError (Workspace W) α) :
    Method QiError (Workspace W) (Prepared W) := do
  let prepared ← x
  pure (wrap prepared)

def next (s : QiSession W) (σ : PoolState W) : PoolAction W → PoolState W
  | .allocate account count attempts cancelled =>
    match QiChangePool.allocate s.store account count attempts cancelled σ.tables with
    | (.ok pool, t) => { σ with tables := t, pools := σ.pools ++ [pool] }
    | (.error _, t) => { σ with tables := t }
  | .prepare k first second id intent policy =>
    σ.freeze k (as Prepared.transfer
      (s.prepare (attempt first) (attempt second) id intent policy))
  | .prepareCrossZone k first second id intent policy =>
    σ.freeze k (as Prepared.transfer
      (s.prepareCrossZone (attempt first) (attempt second) id intent policy))
  | .prepareSpecial k first second id amount intent mode policy =>
    σ.freeze k (as Prepared.special
      (s.prepareSpecial (attempt first) (attempt second) id amount intent mode policy))
  | .prepareSweep k first second id mode policy =>
    σ.freeze k (as Prepared.transfer
      (s.prepareSweep (attempt first) (attempt second) id mode policy))
  | .sign j signature => σ.signAt s j signature
  | .reclaim k j => σ.reclaimAt s.store k j
  | .release k => σ.releaseAt s.store k
  | .dropPool k => { σ with pools := σ.pools.eraseIdx k }
  | .discard j => { σ with prepared := σ.prepared.eraseIdx j }
  | .refresh call =>
    { σ with tables := (call.exec W s.store.scope σ.tables).toOption.getD σ.tables }

def after (s : QiSession W) (actions : List (PoolAction W)) : PoolState W :=
  Run.run (next s) (initial W) actions

def entries (σ : PoolState W) : List PublicAddress := σ.pools.flatMap QiChangePool.addresses

end PoolState

def InSignedPayload (C : Crypto) (c : Custody) (a : Address) : Prop :=
  ∃ id stored op, c.signedPayloads.lookup id = some stored ∧
    SignedQiOperation.decode C stored.payload = .ok op ∧ a ∈ op.addresses

/-- Pools hold BIP44 Qi change children that no signed payload carries, and none of them twice. -/
structure PoolState.Hygienic (σ : PoolState W) : Prop where
  change : ∀ e ∈ σ.entries, ∃ (account : AccountPublic W) (index : ℕ), account.coin = .qi ∧
    PublicAddress.derive account true index = .ok e
  unsigned : ∀ e ∈ σ.entries, ¬InSignedPayload W.toCrypto σ.tables.custody e.address
  distinct : (σ.entries.map PublicAddress.address).Nodup

end Sdk

end QuaiSdk
