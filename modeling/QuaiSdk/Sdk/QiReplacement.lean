import QuaiSdk.Sdk.QiPreflight
import QuaiSdk.Wallet.Denominate
import QuaiSdk.Consensus.QiClassification

/-!
# Qi replacement quotes

`qi_replacement.rs`: a same-input candidate with a higher fee, paid for by change that the caller
gives up.  The other outputs stay; a conversion's or wrap's destination may be re-decomposed, since
the node credits it as one value.
-/

namespace QuaiSdk.Sdk

open Result Wallet Storage Denomination QiPreflightError List

variable {C : Crypto}

structure QiReplacementIntent where
  parent : Hash32
  changeIndexes : List UInt16
  changeOutputs : List QiOutput
  aggregateDestination : Bool
  deriving DecidableEq

structure QiReplacementQuote (C : Crypto) where
  transaction : QiTransaction C
  parent : Hash32
  fee : ℕ
  digest : Hash32
  owners : List PublicAddress

def outputsValue (outputs : List QiOutput) : Except QiPreflightError ℕ :=
  outputs.foldlM (fun sum o =>
    okOr (checkedAdd sum o.denomination.value) invalid) 0

/-- `enumerate().filter(|(i, _)| !selected.contains(&(*i as u16)))`, from position `i` on. -/
def unselected (selected : List UInt16) : ℕ → List QiOutput → List QiOutput
  | _, [] => []
  | i, output :: rest =>
    if UInt16.ofNat i ∈ selected then unselected selected (i + 1) rest
    else output :: unselected selected (i + 1) rest

/-- What the first loop of `aggregate_destination_outputs` finds. -/
structure Destination where
  total : ℕ
  destination : Option Address
  first : Option ℕ

/-- The loop over the outputs, from position `i` on. -/
def findDestination : ℕ → List QiOutput → Destination → Except SelectionError Destination
  | _, [], found => .ok found
  | i, output :: rest, found =>
    if output.address.ledger ≠ .quai then findDestination (i + 1) rest found
    else if ∃ a ∈ found.destination, a ≠ output.address then .error .invalidRequest
    else do
      let total ← okOr (checkedAdd found.total output.denomination.value) SelectionError.overflow
      findDestination (i + 1) rest
        { total, destination := some output.address, first := some (found.first.getD i) }

def rebuildOutputs (aggregated : List QiOutput) (first : ℕ) : ℕ → List QiOutput → List QiOutput
  | _, [] => []
  | i, output :: rest =>
    (if i = first then aggregated else []) ++
      (if output.address.ledger ≠ .quai then [output] else []) ++
      rebuildOutputs aggregated first (i + 1) rest

def aggregateDestinationOutputs (outputs : List QiOutput) (maxOutputs : ℕ) :
    Except SelectionError (List QiOutput) := do
  let found ← findDestination 0 outputs ⟨0, none, none⟩
  let destination ← okOr found.destination SelectionError.invalidRequest
  let first ← okOr found.first SelectionError.invalidRequest
  let kept := outputs.countP fun o => o.address.ledger ≠ .quai
  if maxOutputs < kept then .error .limitExceeded
  else do
    let denominations ← denominateLargest found.total (maxOutputs - kept)
    .ok (rebuildOutputs (denominations.map fun d => ⟨destination, d⟩) first 0 outputs)

namespace QiSource

/-- `coins.get(&outpoint)`. -/
def coin (source : QiSource) (o : OutPoint) : Option CandidateCoin :=
  source.coins.find? fun c => c.outpoint = o

end QiSource

namespace QiReplacement

def checkRequest (source : QiSource) (parent : SignedQiOperation C) (intent : QiReplacementIntent)
    (policy : QiPolicy) (fees : QiFeeMode) : Except QiPreflightError Unit := do
  let hash ← parent.hash.mapError transaction
  if hash ≠ intent.parent ∨ parent.transaction.chainId ≠ source.scope.chainId then .error .invalid
  else do
    let zone ← parent.originZone.mapError transaction
    if zone ≠ source.scope.zone ∨ 100000 < source.owners.length ∨ 100000 < source.coins.length ∨
        intent.changeIndexes = [] ∨ 1024 < intent.changeIndexes.length ∨
        1024 < intent.changeOutputs.length ∨ ¬policy.Shape ∨
        fees.suits (parent.transaction.data ≠ []) = false ∨
        ¬(source.owners.map PublicAddress.address).Nodup ∨
        ¬(source.coins.map CandidateCoin.outpoint).Nodup ∨ ¬intent.changeIndexes.Nodup then
      .error .invalid
    else .ok ()

def oldChange (parent : SignedQiOperation C) (intent : QiReplacementIntent) :
    Except QiPreflightError (List QiOutput) :=
  (intent.changeIndexes.insertionSort fun a b => a.toNat ≤ b.toNat).mapM fun i =>
    okOr parent.transaction.outputs[i.toNat]? invalid

def checkChange (source : QiSource) (output : QiOutput) : Except QiPreflightError Unit := do
  let a ← (LedgerAddress.tryFrom .qi output.address).mapError fun _ => invalid
  if a.zone ≠ source.scope.zone ∨ source.owner output.address = none then .error .invalid
  else .ok ()

def newOutputs (parent : SignedQiOperation C) (intent : QiReplacementIntent) (policy : QiPolicy) :
    Except QiPreflightError (List QiOutput) :=
  let outputs :=
    unselected intent.changeIndexes 0 parent.transaction.outputs ++ intent.changeOutputs
  if intent.aggregateDestination then
    (aggregateDestinationOutputs outputs policy.maxOutputs).mapError fun e =>
      selection (.returned e)
  else .ok outputs

def candidate (parent : SignedQiOperation C) (intent : QiReplacementIntent) (policy : QiPolicy) :
    Except QiPreflightError (QiTransaction C) := do
  let outputs ← newOutputs parent intent policy
  if policy.maxInputs < parent.transaction.inputs.length ∨ policy.maxOutputs < outputs.length then
    .error .invalid
  else .ok { parent.transaction with outputs }

def digest (t : QiTransaction C) : Except QiPreflightError Hash32 :=
  if t.data.length = 0 then t.signingDigest.mapError transaction
  else if t.data.length = 20 then
    (QiWrappingTransaction.fromTransaction t >>= QiWrappingTransaction.signingDigest).mapError
      transaction
  else if t.data.length = 22 then
    (QiConversionTransaction.fromTransaction t >>= QiConversionTransaction.signingDigest).mapError
      transaction
  else .error .invalid

structure Spent where
  value : ℕ
  coins : List CandidateCoin

def spendInput (source : QiSource) (height : ℕ) (s : Spent) (input : QiInput C) :
    Except QiPreflightError Spent := do
  let coin ← okOr (source.coin input.previousOutput) stale
  if coin.address.address ≠ C.address input.publicKey ∨ unspendableAt height coin then .error .stale
  else do
    let owner ← okOr (source.owner (C.address input.publicKey)) invalid
    if owner.publicKey ≠ C.toCompressed input.publicKey then .error .invalid
    else do
      let value ← okOr (checkedAdd s.value coin.denomination.value) invalid
      .ok ⟨value, s.coins ++ [coin]⟩

def checkFee (p : Provider C) (fees : QiFeeMode) (fee : ℕ) (t : QiTransaction C) :
    Except QiPreflightError Unit := do
  let required ← match fees with
    | .profile profile =>
      (QiFeeQuote.qits <$> p.estimateQiSpecialFee 0 t profile).mapError provider
    | mode => do
      let floor ← (p.inclusionFloor 0 t).mapError provider
      if ∃ f ∈ floor, fee < f then .error .feeBelowInclusionFloor
      else match mode with
        | .explicit exact => if fee ≠ exact then .error .invalid else .ok fee
        | _ => (p.estimateQiFee 0 t).mapError provider
  if fee < required then .error (.selection (.returned .feeBudgetExceeded)) else .ok ()

end QiReplacement

open QiReplacement in
/-- `quote_qi_replacement`. -/
def quoteQiReplacement (p : Provider C) (source : QiSource) (parent : SignedQiOperation C)
    (intent : QiReplacementIntent) (policy : QiPolicy) (fees : QiFeeMode) :
    Except QiPreflightError (QiReplacementQuote C) := do
  checkRequest source parent intent policy fees
  let old ← oldChange parent intent
  let _ ← (old ++ intent.changeOutputs).mapM (checkChange source)
  let given ← outputsValue intent.changeOutputs
  let taken ← outputsValue old
  if taken ≤ given then .error .invalid
  else do
    let t ← candidate parent intent policy
    let digest ← digest t
    QiPreflight.network p 0 source.scope
    let height ← QiPreflight.candidateHeight p 0 source policy.maxSnapshotAge
    let spent ← t.inputs.foldlM (spendInput source height) ⟨0, []⟩
    (preservesDenominations (spent.coins.map CandidateCoin.denomination)
      ((t.outputs.filter fun o => o.address.ledger ≠ .quai).map QiOutput.denomination)).mapError
        fun e => selection (.returned e)
    let paid ← outputsValue t.outputs
    if spent.value < paid then .error .invalid
    else do
      let fee := spent.value - paid
      let before ← outputsValue parent.transaction.outputs
      if spent.value < before ∨ policy.maxFee < fee then
        .error (.selection (.returned .feeBudgetExceeded))
      else do
        checkFee p fees fee t
        let final ← QiPreflight.candidateHeight p 1 source policy.maxSnapshotAge
        if ∃ coin ∈ spent.coins, unspendableAt final coin then .error .stale
        else do
          QiPreflight.network p 1 source.scope
          .ok
            { transaction := t
              parent := intent.parent
              fee
              digest
              owners := source.ownersAt (old.map QiOutput.address ++
                intent.changeOutputs.map QiOutput.address ++
                t.inputs.map fun i => C.address i.publicKey) }

@[simp] theorem valueOf_nil : valueOf [] = 0 := rfl

@[simp] theorem valueOf_cons (o : QiOutput) (outputs : List QiOutput) :
    valueOf (o :: outputs) = o.denomination.value + valueOf outputs := total_cons _ _

@[simp] theorem valueOf_append (a b : List QiOutput) : valueOf (a ++ b) = valueOf a + valueOf b := by
  rw [valueOf, map_append, total_append]
  rfl

variable {outputs aggregated : List QiOutput}

theorem checkedSum_eq_ok {ε : Type} {e : ε} {start v : ℕ} (hstart : start < 2 ^ 256) :
    outputs.foldlM (fun sum o => okOr (checkedAdd sum o.denomination.value) e) start = .ok v ↔
      v = start + valueOf outputs ∧ v < 2 ^ 256 := by
  induction outputs generalizing start with
  | nil =>
    rw [foldlM_nil, pure_eq_ok, Except.ok.injEq, valueOf_nil, Nat.add_zero]
    exact ⟨fun h => ⟨h.symm, h ▸ hstart⟩, fun h => h.1.symm⟩
  | cons o rest ih =>
    rw [foldlM_cons, bind_eq_ok, valueOf_cons, ← Nat.add_assoc]
    simp only [okOr_eq_ok, checkedAdd]
    by_cases hfits : start + o.denomination.value < 2 ^ 256
    · simp only [if_pos hfits, Option.some.injEq, exists_eq_left']
      exact ih hfits
    · simp only [if_neg hfits, reduceCtorEq, false_and, exists_const, false_iff, not_and, not_lt]
      omega

theorem outputsValue_eq_ok {v : ℕ} :
    outputsValue outputs = .ok v ↔ v = valueOf outputs ∧ v < 2 ^ 256 := by
  rw [outputsValue, checkedSum_eq_ok (by norm_num), Nat.zero_add]

theorem unselected_eq {selected : List UInt16} {i : ℕ} (h : i + outputs.length ≤ 2 ^ 16) :
    unselected selected i outputs =
      ((outputs.zipIdx i).filter fun r => r.2 ∉ selected.map UInt16.toNat).map Prod.fst := by
  induction outputs generalizing i with
  | nil => rfl
  | cons o rest ih =>
    rw [length_cons] at h
    have hcast : UInt16.ofNat i ∈ selected ↔ i ∈ selected.map UInt16.toNat := by
      rw [mem_map]
      constructor
      · exact fun hmem => ⟨_, hmem, UInt16.toNat_ofNat_of_lt' (by change i < 65536; omega)⟩
      · rintro ⟨k, hk, rfl⟩
        rwa [UInt16.ofNat_toNat]
    rw [unselected, zipIdx_cons, filter_cons]
    by_cases hmem : UInt16.ofNat i ∈ selected
    · rw [if_pos hmem, ih (by omega), if_neg]
      simpa using hcast.mp hmem
    · rw [if_neg hmem, ih (by omega), if_pos, map_cons]
      simpa using fun hin => hmem (hcast.mpr hin)

theorem valueOf_perm {a b : List QiOutput} (h : a.Perm b) : valueOf a = valueOf b := by
  exact ((h.map _).map _).sum_eq

theorem selected_perm {indexes : List ℕ} {chosen : List QiOutput} (hnodup : indexes.Nodup)
    (h : List.Forall₂ (fun i o => outputs[i]? = some o) indexes chosen) :
    ((outputs.zipIdx.filter fun r => r.2 ∈ indexes).map Prod.fst).Perm chosen := by
  have hchosen : chosen.map some = indexes.map fun i => outputs[i]? := by
    induction h with
    | nil => rfl
    | cons hget _ ih => rw [map_cons, map_cons, ih (nodup_cons.mp hnodup).2, hget]
  have hselected : ((outputs.zipIdx.filter fun r => r.2 ∈ indexes).map Prod.fst).map some =
      ((outputs.zipIdx.filter fun r => r.2 ∈ indexes).map Prod.snd).map fun i => outputs[i]? := by
    rw [map_map, map_map]
    apply map_congr_left
    intro r hr
    exact (mem_zipIdx_iff_getElem?.mp (mem_filter.mp hr).1).symm
  -- both sides read the outputs at the same distinct positions
  have hpositions : ((outputs.zipIdx.filter fun r => r.2 ∈ indexes).map Prod.snd).Perm indexes := by
    refine (perm_ext_iff_of_nodup ?_ hnodup).mpr fun i => ⟨fun hi => ?_, fun hi => ?_⟩
    · exact (filter_sublist.map _).nodup (nodup_zipIdx_map_snd outputs)
    · obtain ⟨r, hr, rfl⟩ := mem_map.mp hi
      exact of_decide_eq_true (mem_filter.mp hr).2
    · have hget : outputs[i]? ∈ chosen.map some := hchosen ▸ mem_map_of_mem hi
      obtain ⟨o, -, ho⟩ := mem_map.mp hget
      exact mem_map.mpr ⟨(o, i), mem_filter.mpr
        ⟨mem_zipIdx_iff_getElem?.mpr ho.symm, decide_eq_true hi⟩, rfl⟩
  have hread := (hpositions.map fun i => outputs[i]?).filterMap id
  have hsome : ∀ l : List QiOutput, (l.map some).filterMap id = l := fun l => by
    rw [filterMap_map]
    exact filterMap_some
  rwa [← hselected, ← hchosen, hsome, hsome] at hread

theorem valueOf_kept {indexes : List ℕ} {chosen : List QiOutput} (hnodup : indexes.Nodup)
    (h : List.Forall₂ (fun i o => outputs[i]? = some o) indexes chosen) :
    valueOf ((outputs.zipIdx.filter fun r => r.2 ∉ indexes).map Prod.fst) + valueOf chosen =
      valueOf outputs := by
  have hsplit := (filter_append_perm (fun r : QiOutput × ℕ =>
    decide (r.2 ∈ indexes)) outputs.zipIdx).map Prod.fst
  rw [zipIdx_map_fst, map_append] at hsplit
  rw [← valueOf_perm (selected_perm hnodup h), ← valueOf_perm hsplit, valueOf_append, Nat.add_comm]
  simp only [decide_not]

def qiOutputs (outputs : List QiOutput) : List QiOutput :=
  outputs.filter fun o => o.address.ledger ≠ .quai

def quaiOutputs (outputs : List QiOutput) : List QiOutput :=
  outputs.filter fun o => o.address.ledger = .quai

theorem qiOutputs_append (a b : List QiOutput) : qiOutputs (a ++ b) = qiOutputs a ++ qiOutputs b :=
  filter_append ..

theorem quaiOutputs_append (a b : List QiOutput) :
    quaiOutputs (a ++ b) = quaiOutputs a ++ quaiOutputs b := filter_append ..

theorem valueOf_split (outputs : List QiOutput) :
    valueOf (qiOutputs outputs) + valueOf (quaiOutputs outputs) = valueOf outputs := by
  have hperm := filter_append_perm (fun o : QiOutput => decide (o.address.ledger ≠ .quai)) outputs
  rw [← valueOf_perm hperm, valueOf_append]
  simp only [qiOutputs, quaiOutputs, decide_not, Bool.not_not]

/-- What the first loop knows about the outputs it passed. -/
structure Finds (i : ℕ) (outputs : List QiOutput) (found found' : Destination) : Prop where
  total : found'.total = found.total + valueOf (quaiOutputs outputs)
  kept : ∀ a, found.destination = some a → found'.destination = some a
  shared : ∀ o ∈ quaiOutputs outputs, found'.destination = some o.address
  ledger : ∀ a, found'.destination = some a → found.destination = some a ∨ a.ledger = .quai
  first : ∀ k, found'.first = some k → found.first = some k ∨ i ≤ k ∧ k < i + outputs.length

theorem findDestination_finds {i : ℕ} {found found' : Destination}
    (h : findDestination i outputs found = .ok found') : Finds i outputs found found' := by
  induction outputs generalizing i found with
  | nil =>
    cases h
    exact ⟨rfl, fun a ha => ha, fun o ho => (not_mem_nil ho).elim, fun a ha => .inl ha,
      fun k hk => .inl hk⟩
  | cons o rest ih =>
    rw [findDestination] at h
    by_cases hledger : o.address.ledger = .quai
    · rw [if_neg (not_not.mpr hledger)] at h
      simp only [eq_ok, not_exists, not_and, not_not] at h
      obtain ⟨hsame, total, htotal, h⟩ := h
      have hrest := ih h
      have hquai : quaiOutputs (o :: rest) = o :: quaiOutputs rest :=
        filter_cons_of_pos (decide_eq_true hledger)
      have hdestination : found'.destination = some o.address := hrest.kept _ rfl
      refine ⟨?_, fun a ha => ?_, fun o' ho' => ?_, fun a ha => ?_, fun k hk => ?_⟩
      · have hsum := (checkedAdd_eq_some htotal).1
        have hvalue := hrest.total
        dsimp only at hvalue
        rw [hquai, valueOf_cons]
        omega
      · rw [hsame a ha]
        exact hdestination
      · rw [hquai] at ho'
        rcases mem_cons.mp ho' with rfl | ho'
        · exact hdestination
        · exact hrest.shared o' ho'
      · rw [hdestination, Option.some.injEq] at ha
        exact .inr (ha ▸ hledger)
      · rw [length_cons]
        rcases hrest.first k hk with hold | hnew
        · -- an earlier position stays; otherwise this one was inserted
          cases hprevious : found.first with
          | none =>
            rw [hprevious, Option.getD_none, Option.some.injEq] at hold
            exact .inr (by omega)
          | some =>
            rw [hprevious] at hold
            exact .inl hold
        · exact .inr (by omega)
    · rw [if_pos hledger] at h
      have hrest := ih h
      have hquai : quaiOutputs (o :: rest) = quaiOutputs rest :=
        filter_cons_of_neg (by rw [decide_eq_true_iff]; exact hledger)
      refine ⟨?_, hrest.kept, ?_, hrest.ledger, fun k hk => ?_⟩
      · rw [hquai]
        exact hrest.total
      · rw [hquai]
        exact hrest.shared
      · rw [length_cons]
        exact (hrest.first k hk).imp_right (by omega)

theorem rebuildOutputs_qi (hquai : qiOutputs aggregated = []) (first i : ℕ)
    (outputs : List QiOutput) :
    qiOutputs (rebuildOutputs aggregated first i outputs) = qiOutputs outputs := by
  induction outputs generalizing i with
  | nil => rfl
  | cons o rest ih =>
    have hnone : qiOutputs (if i = first then aggregated else []) = [] := by
      split
      · exact hquai
      · rfl
    rw [rebuildOutputs, qiOutputs_append, qiOutputs_append, ih, hnone, nil_append]
    by_cases hledger : o.address.ledger = .quai <;> simp [qiOutputs, hledger]

theorem rebuildOutputs_quai (hquai : quaiOutputs aggregated = aggregated) (first i : ℕ)
    (outputs : List QiOutput) :
    quaiOutputs (rebuildOutputs aggregated first i outputs) =
      if i ≤ first ∧ first < i + outputs.length then aggregated else [] := by
  induction outputs generalizing i with
  | nil =>
    rw [if_neg (by simp)]
    rfl
  | cons o rest ih =>
    have hself : quaiOutputs (if o.address.ledger ≠ .quai then [o] else []) = [] := by
      split
      · rename_i hledger
        exact filter_cons_of_neg (by rw [decide_eq_true_iff]; exact hledger)
      · rfl
    rw [rebuildOutputs, quaiOutputs_append, quaiOutputs_append, hself, ih, append_nil, length_cons]
    by_cases hfirst : i = first
    · rw [if_pos hfirst, hquai, if_neg (by omega), append_nil, if_pos (by omega)]
    · rw [if_neg hfirst]
      change [] ++ _ = _
      rw [nil_append]
      congr 1
      exact propext (by omega)

/-- The Qi outputs are kept in order and the destination keeps its address and total. -/
theorem aggregateDestinationOutputs_spec {maxOutputs : ℕ}
    (h : aggregateDestinationOutputs outputs maxOutputs = .ok aggregated) :
    qiOutputs aggregated = qiOutputs outputs ∧
      valueOf (quaiOutputs aggregated) = valueOf (quaiOutputs outputs) ∧
      ∃ destination, ∀ o ∈ quaiOutputs outputs ++ quaiOutputs aggregated,
        o.address = destination := by
  simp only [aggregateDestinationOutputs, eq_ok] at h
  obtain ⟨found, hfound, destination, hdestination, first, hfirst, -, denominations, hlargest,
    rfl⟩ := h
  have hfinds := findDestination_finds hfound
  obtain ⟨hvalue, -⟩ := denominateLargest_spec hlargest
  generalize hshape : (denominations.map fun d => (⟨destination, d⟩ : QiOutput)) = shape
  have hquai : destination.ledger = .quai :=
    (hfinds.ledger _ hdestination).resolve_left (Option.some_ne_none _).symm
  have hall : ∀ o ∈ shape, o.address = destination := by
    rw [← hshape]
    intro o ho
    obtain ⟨d, -, rfl⟩ := mem_map.mp ho
    rfl
  have hshapeQuai : quaiOutputs shape = shape :=
    filter_eq_self.mpr fun o ho => decide_eq_true (by rw [hall o ho, hquai])
  have hshapeQi : qiOutputs shape = [] := filter_eq_nil_iff.mpr fun o ho => by
      rw [decide_eq_true_iff, not_not, hall o ho, hquai]
  have hrebuilt : quaiOutputs (rebuildOutputs shape first 0 outputs) = shape := by
    rw [rebuildOutputs_quai hshapeQuai, if_pos]
    exact (hfinds.first _ hfirst).resolve_left (Option.some_ne_none _).symm
  have hsum : valueOf shape = found.total := by
    rw [← hshape, valueOf, map_map, ← hvalue]
    exact congrArg _ (map_id' _)
  refine ⟨rebuildOutputs_qi hshapeQi _ _ _, ?_, destination, fun o ho => ?_⟩
  · rw [hrebuilt, hsum, hfinds.total]
    exact Nat.zero_add _
  · rw [hrebuilt] at ho
    rcases mem_append.mp ho with ho | ho
    · have hshared := hfinds.shared o ho
      rw [hdestination, Option.some.injEq] at hshared
      exact hshared.symm
    · exact hall o ho

def keptOutputs (parent : SignedQiOperation C) (intent : QiReplacementIntent) : List QiOutput :=
  (parent.transaction.outputs.zipIdx.filter fun r =>
    r.2 ∉ intent.changeIndexes.map UInt16.toNat).map Prod.fst

structure QiAdmissible (source : QiSource) (parent : SignedQiOperation C)
    (intent : QiReplacementIntent) (policy : QiPolicy) (quote : QiReplacementQuote C) : Prop where
  identity : parent.hash = .ok quote.parent
  chainId : quote.transaction.chainId = parent.transaction.chainId
  inputs : quote.transaction.inputs = parent.transaction.inputs
  data : quote.transaction.data = parent.transaction.data
  kept : intent.aggregateDestination = false →
    quote.transaction.outputs = keptOutputs parent intent ++ intent.changeOutputs
  aggregated : intent.aggregateDestination = true →
    qiOutputs quote.transaction.outputs =
        qiOutputs (keptOutputs parent intent) ++ intent.changeOutputs ∧
      valueOf (quaiOutputs quote.transaction.outputs) =
        valueOf (quaiOutputs parent.transaction.outputs) ∧
      ∃ destination, ∀ o ∈ quaiOutputs parent.transaction.outputs ++
        quaiOutputs quote.transaction.outputs, o.address = destination
  lower : valueOf quote.transaction.outputs < valueOf parent.transaction.outputs
  spends : ∃ coins, List.Forall₂ (fun (input : QiInput C) coin => coin ∈ source.coins ∧
      coin.outpoint = input.previousOutput) quote.transaction.inputs coins ∧
    preservesDenominations (coins.map CandidateCoin.denomination)
      ((qiOutputs quote.transaction.outputs).map QiOutput.denomination) = .ok () ∧
    quote.fee + valueOf quote.transaction.outputs = coinTotal coins
  fee : quote.fee ≤ policy.maxFee

namespace QiReplacement

variable {source : QiSource} {parent : SignedQiOperation C} {intent : QiReplacementIntent}
  {policy : QiPolicy} {fees : QiFeeMode}

theorem checkChange_ledger {output : QiOutput} (h : checkChange source output = .ok ()) :
    output.address.ledger = .qi := by
  simp only [checkChange, eq_ok] at h
  obtain ⟨a, ha, -⟩ := h
  rw [← LedgerAddress.address_of_tryFrom ha]
  exact a.ledger_eq

theorem spendInputs_spec {height : ℕ} {inputs : List (QiInput C)} {start spent : Spent}
    (h : inputs.foldlM (spendInput source height) start = .ok spent) :
    ∃ coins, spent.coins = start.coins ++ coins ∧ spent.value = start.value + coinTotal coins ∧
      List.Forall₂ (fun (input : QiInput C) coin => coin ∈ source.coins ∧
        coin.outpoint = input.previousOutput) inputs coins := by
  induction inputs generalizing start with
  | nil =>
    cases h
    exact ⟨[], by simp, rfl, .nil⟩
  | cons input rest ih =>
    rw [foldlM_cons, bind_eq_ok] at h
    obtain ⟨next, hnext, hrest⟩ := h
    simp only [spendInput, eq_ok] at hnext
    obtain ⟨coin, hcoin, -, owner, -, -, value, hvalue, rfl⟩ := hnext
    obtain ⟨coins, hcoins, htotal, hmatch⟩ := ih hrest
    refine ⟨coin :: coins, ?_, ?_, .cons ⟨?_, ?_⟩ hmatch⟩
    · rw [hcoins, append_assoc]
      rfl
    · have hsum := (checkedAdd_eq_some hvalue).1
      rw [coinTotal, map_cons, total_cons]
      change spent.value = value + coinTotal coins at htotal
      rw [coinTotal] at htotal
      omega
    · exact mem_of_find?_eq_some hcoin
    · have hfound := find?_some hcoin
      exact of_decide_eq_true hfound

variable {old : List QiOutput} {indexes : List ℕ}

theorem oldChange_eq_ok (h : oldChange parent intent = .ok old) :
    ∃ indexes : List ℕ, indexes.Perm (intent.changeIndexes.map UInt16.toNat) ∧
      List.Forall₂ (fun i o => parent.transaction.outputs[i]? = some o) indexes old := by
  refine ⟨_, (perm_insertionSort (fun a b : UInt16 => a.toNat ≤ b.toNat)
    intent.changeIndexes).map UInt16.toNat, ?_⟩
  rw [forall₂_map_left_iff]
  exact (forall₂_of_mapM h).imp fun i o hget => okOr_eq_ok.mp hget

theorem keptOutputs_eq (h : indexes.Perm (intent.changeIndexes.map UInt16.toNat)) :
    keptOutputs parent intent =
      (parent.transaction.outputs.zipIdx.filter fun r => r.2 ∉ indexes).map Prod.fst := by
  unfold keptOutputs
  simp only [h.mem_iff]

theorem quaiOutputs_kept (hnodup : indexes.Nodup)
    (hperm : indexes.Perm (intent.changeIndexes.map UInt16.toNat))
    (hread : List.Forall₂ (fun i o => parent.transaction.outputs[i]? = some o) indexes old)
    (hqi : ∀ o ∈ old, o.address.ledger = .qi) :
    quaiOutputs (keptOutputs parent intent) = quaiOutputs parent.transaction.outputs := by
  have hselected : ∀ r ∈ parent.transaction.outputs.zipIdx, r.1.address.ledger = .quai →
      r.2 ∉ indexes := by
    intro r hr hquai hmem
    have hold := (selected_perm hnodup hread).subset
      (mem_map_of_mem (mem_filter.mpr ⟨hr, decide_eq_true hmem⟩))
    rw [hqi _ hold] at hquai
    cases hquai
  have hall : quaiOutputs parent.transaction.outputs = (parent.transaction.outputs.zipIdx.filter
      fun r => r.1.address.ledger = .quai).map Prod.fst := by
    conv_lhs => rw [quaiOutputs, ← zipIdx_map_fst 0 parent.transaction.outputs, filter_map]
    rfl
  rw [keptOutputs_eq hperm, hall, quaiOutputs, filter_map, filter_filter]
  congr 1
  apply filter_congr
  intro r hr
  by_cases hquai : r.1.address.ledger = .quai
  · simp [hquai, hselected r hr hquai]
  · simp [hquai]

theorem qiOutputs_of_forall {outputs : List QiOutput} (h : ∀ o ∈ outputs, o.address.ledger = .qi) :
    qiOutputs outputs = outputs ∧ quaiOutputs outputs = [] := by
  constructor
  · exact filter_eq_self.mpr fun o ho => decide_eq_true (by rw [h o ho]; decide)
  · exact filter_eq_nil_iff.mpr fun o ho => by
      rw [decide_eq_true_iff, h o ho]
      decide

theorem keptOutputs_eq_unselected :
    unselected intent.changeIndexes 0 parent.transaction.outputs = keptOutputs parent intent := by
  obtain ⟨zone, hvalid⟩ := parent.exists_validateFor
  have hmessages := (validateFor_spec hvalid).messages
  unfold QiTransaction.messages maxTransactionMessages at hmessages
  exact unselected_eq (by omega)

theorem newOutputs_spec {outputs : List QiOutput} (hnodup : indexes.Nodup)
    (hperm : indexes.Perm (intent.changeIndexes.map UInt16.toNat))
    (hread : List.Forall₂ (fun i o => parent.transaction.outputs[i]? = some o) indexes old)
    (hold : ∀ o ∈ old, o.address.ledger = .qi)
    (hnew : ∀ o ∈ intent.changeOutputs, o.address.ledger = .qi)
    (h : newOutputs parent intent policy = .ok outputs) :
    (intent.aggregateDestination = false →
      outputs = keptOutputs parent intent ++ intent.changeOutputs) ∧
    (intent.aggregateDestination = true →
      qiOutputs outputs = qiOutputs (keptOutputs parent intent) ++ intent.changeOutputs ∧
      valueOf (quaiOutputs outputs) = valueOf (quaiOutputs parent.transaction.outputs) ∧
      ∃ destination, ∀ o ∈ quaiOutputs parent.transaction.outputs ++ quaiOutputs outputs,
        o.address = destination) ∧
    valueOf outputs = valueOf (keptOutputs parent intent) + valueOf intent.changeOutputs := by
  unfold newOutputs at h
  rw [keptOutputs_eq_unselected] at h
  obtain ⟨hqi, hquai⟩ := qiOutputs_of_forall hnew
  have hkept := quaiOutputs_kept hnodup hperm hread hold
  have hquaiSum : quaiOutputs (keptOutputs parent intent ++ intent.changeOutputs) =
      quaiOutputs parent.transaction.outputs := by
    rw [quaiOutputs_append, hquai, append_nil, hkept]
  have hqiSum : qiOutputs (keptOutputs parent intent ++ intent.changeOutputs) =
      qiOutputs (keptOutputs parent intent) ++ intent.changeOutputs := by
    rw [qiOutputs_append, hqi]
  split at h
  · rename_i hflag
    obtain ⟨hsameQi, hsameQuai, hdestination⟩ :=
      aggregateDestinationOutputs_spec (mapError_eq_ok.mp h)
    rw [hquaiSum] at hsameQuai hdestination
    refine ⟨fun hfalse => ?_, fun _ => ⟨hsameQi.trans hqiSum, hsameQuai, hdestination⟩, ?_⟩
    · rw [hflag] at hfalse
      cases hfalse
    · rw [← valueOf_split outputs, hsameQi, hsameQuai, ← hquaiSum, valueOf_split, valueOf_append]
  · rename_i hflag
    rw [Except.ok.injEq] at h
    subst h
    exact ⟨fun _ => rfl, fun htrue => (hflag htrue).elim, valueOf_append _ _⟩

end QiReplacement

open QiReplacement in
theorem quoteQiReplacement_admissible {p : Provider C} {source : QiSource}
    {parent : SignedQiOperation C} {intent : QiReplacementIntent} {policy : QiPolicy}
    {fees : QiFeeMode} {quote : QiReplacementQuote C}
    (h : quoteQiReplacement p source parent intent policy fees = .ok quote) :
    QiAdmissible source parent intent policy quote := by
  simp only [quoteQiReplacement, checkRequest, eq_ok, not_or, not_not] at h
  obtain ⟨⟨⟩, ⟨hash, hhash, ⟨rfl, -⟩, zone, -, hrequest⟩, old, hold, changes, hchanges, given,
    hgiven, taken, htaken, hless, t, hcandidate, digest, -, ⟨⟩, -, height, -, spent, hspent, ⟨⟩,
    hpreserved, paid, hpaid, hfunded, before, -, ⟨-, hbudget⟩, ⟨⟩, -, final, -, -, ⟨⟩, -, rfl⟩ := h
  obtain ⟨outputs, houtputs, -, rfl⟩ : ∃ outputs, newOutputs parent intent policy = .ok outputs ∧
      _ ∧ _ := by
    simpa only [candidate, bind_eq_ok, ite_error_eq_ok, Except.ok.injEq] using hcandidate
  have hunique : intent.changeIndexes.Nodup := by tauto
  obtain ⟨indexes, hperm, hread⟩ := oldChange_eq_ok hold
  have hnodup : indexes.Nodup :=
    hperm.nodup_iff.mpr (hunique.map fun _ _ heq => UInt16.toNat_inj.mp heq)
  have hledger : ∀ o ∈ old ++ intent.changeOutputs, o.address.ledger = .qi := by
    intro o ho
    obtain ⟨⟨⟩, -, hchecked⟩ := exists_of_mapM hchanges ho
    exact checkChange_ledger hchecked
  obtain ⟨hkept, haggregated, hvalue⟩ := newOutputs_spec hnodup hperm hread
    (fun o ho => hledger o (mem_append_left _ ho))
    (fun o ho => hledger o (mem_append_right _ ho)) houtputs
  have hparts := valueOf_kept hnodup hread
  rw [← keptOutputs_eq hperm] at hparts
  obtain ⟨coins, hcoins, htotal, hmatch⟩ := spendInputs_spec hspent
  rw [Nat.zero_add] at htotal
  rw [hcoins] at hpreserved
  obtain ⟨rfl, -⟩ := outputsValue_eq_ok.mp hgiven
  obtain ⟨rfl, -⟩ := outputsValue_eq_ok.mp htaken
  obtain ⟨rfl, -⟩ := outputsValue_eq_ok.mp hpaid
  exact
    { identity := hhash
      chainId := rfl
      inputs := rfl
      data := rfl
      kept := hkept
      aggregated := haggregated
      lower := by
        change valueOf outputs < _
        omega
      spends := ⟨coins, hmatch, hpreserved, by
        change spent.value - valueOf outputs + valueOf outputs = coinTotal coins
        change ¬spent.value < valueOf outputs at hfunded
        omega⟩
      fee := not_lt.mp hbudget }

end QuaiSdk.Sdk
