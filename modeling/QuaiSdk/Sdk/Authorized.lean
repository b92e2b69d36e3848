import QuaiSdk.Consensus.QiCodec
import QuaiSdk.Sdk.QiPrepare
import QuaiSdk.Wallet.SweepSound

/-!
# What a quote or a preparation authorizes

Whatever the node answers, a transaction that a Qi workflow freezes spends exactly its outputs and
its fee, pays its recipients what was asked, drops none of the selected denominations, and takes its
inputs from unreserved, unlocked and unexpired coins under their stored keys.  Each builder is
reduced to a plan of one of its rounds; the shared part is proved once about plans.
-/

namespace QuaiSdk.Sdk

open Result Wallet Storage Denomination List QiOutput

def paidTo {C : Crypto} (recipients : List Address) (t : QiTransaction C) : ℕ :=
  valueOf (t.outputs.filter fun o => o.address ∈ recipients)

def storedOwner (t : ScopeTables) (a : Address) : Option PublicAddress :=
  (t.addresses.lookup a).map fun row => ⟨a, row.publicKey, row.origin⟩

/-- The input spends the coin under the key of its owner's metadata. -/
def KeyedBy {C : Crypto} (owner : Address → Option PublicAddress) (coin : CandidateCoin)
    (input : QiInput C) : Prop :=
  input.previousOutput = coin.outpoint ∧
    ∃ o, owner coin.address.address = some o ∧ C.fromSec1 o.publicKey = some input.publicKey

/-- A frozen transaction over selected coins, with the fee it pays and the height of its last
checks. -/
structure Authorized {C : Crypto} (owner : Address → Option PublicAddress)
    (coins : List CandidateCoin) (maxFee finalHeight : ℕ) (sel : CoinSelection)
    (t : QiTransaction C) (fee : ℕ) : Prop where
  fromWallet : ∀ coin ∈ sel.inputs, coin ∈ coins
  conserved : (sel.inputs.map fun coin => coin.denomination.value).sum =
    (t.outputs.map fun o => o.denomination.value).sum + fee
  feeBound : fee ≤ maxFee
  denominations : t.outputs.map denomination = sel.spendOutputs ++ sel.changeOutputs
  distinct : ((t.outputs.filter fun o => o.address.ledger = .qi).map address).Nodup
  keys : List.Forall₂ (KeyedBy owner) sel.inputs t.inputs
  spendable : ∀ coin ∈ sel.inputs, coin.reserved = false ∧ coin.unlockHeight ≤ finalHeight ∧
    ∀ expiry, coin.expiresAt = some expiry → finalHeight < expiry

section Outputs

variable {denominations : List Denomination} {addresses : List Address}

section

variable (h : denominations.length ≤ addresses.length)
include h

theorem payTo_denominations : (payTo denominations addresses).map denomination = denominations := by
  induction denominations generalizing addresses with
  | nil => rfl
  | cons d rest ih =>
    cases addresses with
    | nil => cases h
    | cons => exact congrArg (d :: ·) (ih (Nat.le_of_succ_le_succ h))

theorem payTo_addresses :
    (payTo denominations addresses).map address = addresses.take denominations.length := by
  induction denominations generalizing addresses with
  | nil => rfl
  | cons d rest ih =>
    cases addresses with
    | nil => cases h
    | cons a => exact congrArg (a :: ·) (ih (Nat.le_of_succ_le_succ h))

theorem address_mem_of_mem_payTo {o : QiOutput}
    (ho : o ∈ payTo denominations addresses) : o.address ∈ addresses := by
  have hmem := mem_map_of_mem (f := address) ho
  rw [payTo_addresses h] at hmem
  exact mem_of_mem_take hmem

end

end Outputs

variable {C : Crypto} {t : QiTransaction C} {owner : Address → Option PublicAddress} {zone : Zone}
  {sel : CoinSelection}

theorem paidTo_append {recipients : List Address} {spend change : List QiOutput}
    (houtputs : t.outputs = spend ++ change) (hspend : ∀ o ∈ spend, o.address ∈ recipients)
    (hchange : ∀ o ∈ change, o.address ∉ recipients) :
    paidTo recipients t = valueOf spend := by
  have hkept : spend.filter (fun o => decide (o.address ∈ recipients)) = spend :=
    filter_eq_self.mpr fun o ho => decide_eq_true (hspend o ho)
  have hdropped : change.filter (fun o => decide (o.address ∈ recipients)) = [] :=
    filter_eq_nil_iff.mpr fun o ho => by simpa using hchange o ho
  rw [paidTo, houtputs, filter_append, hkept, hdropped, append_nil]

/-- A transaction with the selected denominations, distinct Qi outputs and inputs keyed by their
owners. -/
structure Planned {C : Crypto} (owner : Address → Option PublicAddress) (sel : CoinSelection)
    (t : QiTransaction C) : Prop where
  denominations : t.outputs.map denomination = sel.spendOutputs ++ sel.changeOutputs
  distinct : ((t.outputs.filter fun o => o.address.ledger = .qi).map address).Nodup
  keys : List.Forall₂ (KeyedBy owner) sel.inputs t.inputs

/-- A plan for a funded selection that passes the last height check is authorized. -/
theorem Planned.authorized {coins : List CandidateCoin} {policy : QiPolicy}
    {height amount fee finalHeight : ℕ} (hplan : Planned owner sel t)
    (hfunded : sel.Funded coins (policy.request zone height amount fee))
    (hfinal : ¬∃ coin ∈ sel.inputs, unspendableAt finalHeight coin) :
    Authorized owner coins policy.maxFee finalHeight sel t fee := by
  have hvalue : coinTotal sel.inputs = valueOf t.outputs + fee := by
    rw [valueOf, hplan.denominations, total_append]
    exact hfunded.conserved
  refine ⟨fun coin hcoin => (hfunded.eligible coin hcoin).1, ?_, hfunded.feeBound,
    hplan.denominations, hplan.distinct, hplan.keys, fun coin hcoin => ?_⟩
  · simp only [coinTotal, valueOf, total, map_map] at hvalue
    exact hvalue
  · have hreserved := (hfunded.eligible coin hcoin).2.2.1
    have hok : ¬unspendableAt finalHeight coin := fun hbad => hfinal ⟨coin, hcoin, hbad⟩
    simp only [unspendableAt, not_or, not_lt, not_exists, not_and, not_le] at hok
    exact ⟨hreserved, hok.1, hok.2⟩

/-- An ordinary payload: denominations paid to two separate address lists that are long enough. -/
theorem planned_of_payTo {recipients change : List Address}
    (hvalid : t.validateFor .ordinary = .ok zone)
    (houtputs : t.outputs = payTo sel.spendOutputs recipients ++ payTo sel.changeOutputs change)
    (hrecipients : sel.spendOutputs.length ≤ recipients.length)
    (hchange : sel.changeOutputs.length ≤ change.length) (hapart : ∀ a ∈ change, a ∉ recipients)
    (hkeys : List.Forall₂ (KeyedBy owner) sel.inputs t.inputs) :
    Planned owner sel t ∧ paidTo recipients t = total sel.spendOutputs := by
  refine ⟨⟨?_, qiOutputs_nodup hvalid, hkeys⟩, ?_⟩
  · rw [houtputs, map_append, payTo_denominations hrecipients, payTo_denominations hchange]
  · rw [paidTo_append houtputs, valueOf, payTo_denominations hrecipients]
    · exact fun o ho => address_mem_of_mem_payTo hrecipients ho
    · exact fun o ho => hapart _ (address_mem_of_mem_payTo hchange ho)

/-- A special payload: the destination gets the spent denominations, change the rest. -/
theorem planned_of_special {mode : QiMode} {inputs : List (QiInput C)} {destination : QuaiAddress}
    {change : List Address} (hvalid : t.validateFor mode = .ok zone)
    (hbuilt : SpecialBuilt inputs sel.spendOutputs (payTo sel.changeOutputs change) destination t)
    (hchange : sel.changeOutputs.length ≤ change.length)
    (hkeys : List.Forall₂ (KeyedBy owner) sel.inputs inputs) :
    Planned owner sel t ∧ paidTo [destination.address] t = total sel.spendOutputs := by
  refine ⟨⟨?_, qiOutputs_nodup hvalid, ?_⟩, ?_⟩
  · rw [hbuilt.outputs, map_append, payTo_denominations hchange, map_map]
    exact congrArg (· ++ _) (map_id _)
  · rw [hbuilt.inputs]
    exact hkeys
  · rw [paidTo_append hbuilt.outputs, valueOf, map_map]
    · exact congrArg total (map_id _)
    · intro o ho
      obtain ⟨d, -, rfl⟩ := mem_map.mp ho
      exact mem_singleton_self _
    · -- change stands on the other ledger
      intro o ho hmem
      have hqi := hbuilt.change o ho
      rw [mem_singleton.mp hmem, destination.ledger_eq] at hqi
      cases hqi

theorem exists_validateFor_of_digest {mode : QiMode} {digest : Hash32}
    (h : t.signingDigestFor mode = .ok digest) :
    ∃ zone, t.validateFor mode = .ok zone := by
  simp only [QiTransaction.signingDigestFor, bind_eq_ok] at h
  obtain ⟨b, hb, -⟩ := h
  exact (QiTransaction.unsignedBytesFor_spec hb).2.2.1

namespace QiOperationIntent

variable {C : Crypto}

def recipients : QiOperationIntent → List Address
  | transfer v | crossZone v => v.destinations.map LedgerAddress.address
  | conversion _ intent => [intent.destination.address]
  | wrapping _ intent => [intent.destination.address]
  | sweep destinations _ => destinations.map LedgerAddress.address

/-- Recipients get the amount; those of a sweep get what the fee leaves, of every eligible coin in
the modes that spend everything. -/
def Settles (intent : QiOperationIntent) (coins : List CandidateCoin)
    (request : SelectionRequest) (sel : CoinSelection) (t : QiTransaction C) : Prop :=
  match intent with
  | sweep _ mode => paidTo intent.recipients t = coinTotal sel.inputs - request.fee ∧
      (mode.SpendsAll → sel.inputs = eligible request coins)
  | _ => paidTo intent.recipients t = intent.amount

theorem select_funded {intent : QiOperationIntent} {coins : List CandidateCoin}
    {request : SelectionRequest} {sel : CoinSelection} {t : QiTransaction C}
    (h : intent.select coins request = .ok sel) (htarget : request.target = intent.amount)
    (hpaid : paidTo intent.recipients t = total sel.spendOutputs) :
    sel.Funded coins request ∧ intent.Settles coins request sel t := by
  -- the fewest-input selectors spend the target; a sweep has no change
  have hfewest : ∀ aggregated, selectFewestInner coins request aggregated = .ok sel →
      sel.Funded coins request ∧ paidTo intent.recipients t = intent.amount := by
    intro aggregated hsel
    obtain ⟨hfunded, hspend⟩ := selectFewestInner_funded hsel
    exact ⟨hfunded, by rw [hpaid, hspend, htarget]⟩
  cases intent with
  | transfer | crossZone => exact hfewest false (mapError_eq_ok.mp h)
  | conversion | wrapping => exact hfewest true (mapError_eq_ok.mp h)
  | sweep =>
    obtain ⟨hfunded, hchange, hall⟩ := selectSweep_funded h
    refine ⟨hfunded, ?_, hall⟩
    have hconserved := hfunded.conserved
    rw [hchange, total_nil] at hconserved
    omega

end QiOperationIntent

section Quote

variable {C : Crypto} {p : Provider C} {r : QiQuoteRequest}

theorem input_keyed {coin : CandidateCoin} {input : QiInput C}
    (h : r.input C coin = .ok input) : KeyedBy r.source.owner coin input := by
  simp only [QiQuoteRequest.input, eq_ok] at h
  obtain ⟨owner, howner, key, hkey, hok⟩ := h
  cases hok
  exact ⟨rfl, owner, howner, hkey⟩

/-- The built transaction is planned, and its recipients get the selected denominations. -/
theorem build_planned {inputs : List (QiInput C)} {sel : CoinSelection} {t : QiTransaction C}
    {digest : Hash32} (h : r.build inputs sel = .ok (t, digest)) (hbad : ¬r.BadOutputs)
    (hspend : r.intent.special = false → sel.spendOutputs.length ≤ r.intent.destinations.length)
    (hchange : sel.changeOutputs.length ≤ r.change.length)
    (hkeys : List.Forall₂ (KeyedBy r.source.owner) sel.inputs inputs) :
    Planned r.source.owner sel t ∧ paidTo r.intent.recipients t = total sel.spendOutputs := by
  obtain ⟨source, intent, policy, fees, change⟩ := r
  have hchange' : sel.changeOutputs.length ≤ (change.map PublicAddress.address).length := by
    rw [length_map]
    exact hchange
  have hapart : ∀ a ∈ change.map PublicAddress.address,
      a ∉ intent.destinations.map LedgerAddress.address := by
    have hnodup := not_not.mp (not_or.mp hbad).1
    intro a ha hmem
    exact (nodup_append.mp hnodup).2.2 a hmem a ha rfl
  -- transfers in either zone and sweeps share one branch
  have hordinary : ∀ t : QiTransaction C, t.signingDigest = .ok digest → intent.special = false →
      t.outputs = payTo sel.spendOutputs (intent.destinations.map LedgerAddress.address) ++
        payTo sel.changeOutputs (change.map PublicAddress.address) → t.inputs = inputs →
      Planned source.owner sel t ∧
        paidTo (intent.destinations.map LedgerAddress.address) t = total sel.spendOutputs := by
    intro t hdigest hspecial houtputs hinputs
    obtain ⟨zone, hvalid⟩ := exists_validateFor_of_digest hdigest
    apply planned_of_payTo hvalid houtputs _ hchange' hapart (hinputs ▸ hkeys)
    rw [length_map]
    exact hspend hspecial
  cases intent with
  | conversion =>
    simp only [QiQuoteRequest.build, eq_ok, Prod.mk.injEq] at h
    obtain ⟨typed, htyped, _, -, rfl, -⟩ := h
    obtain ⟨zone, hvalid⟩ := typed.exists_validateFor
    exact planned_of_special hvalid (QiConversionTransaction.new_spec htyped).1 hchange' hkeys
  | wrapping =>
    simp only [QiQuoteRequest.build, eq_ok, Prod.mk.injEq] at h
    obtain ⟨typed, htyped, _, -, rfl, -⟩ := h
    obtain ⟨zone, hvalid⟩ := typed.exists_validateFor
    exact planned_of_special hvalid (QiWrappingTransaction.new_spec htyped) hchange' hkeys
  | transfer _ | crossZone _ | sweep _ _ =>
    simp only [QiQuoteRequest.build, eq_ok, Prod.mk.injEq] at h
    obtain ⟨_, hdigest, rfl, rfl⟩ := h
    exact hordinary _ hdigest rfl rfl rfl

theorem round_planned {height n fee : ℕ} {draft : QiQuoteRequest.Draft C}
    (h : r.round p height n fee = .ok (.done draft)) (hbad : ¬r.BadOutputs) :
    r.intent.select r.source.coins
        (r.policy.request r.source.scope.zone height r.intent.amount fee) = .ok draft.selection ∧
      Planned r.source.owner draft.selection draft.transaction ∧
      paidTo r.intent.recipients draft.transaction = total draft.selection.spendOutputs := by
  simp only [QiQuoteRequest.round, eq_ok, not_or, not_and, not_lt] at h
  obtain ⟨sel, hsel, ⟨hspend, hchange⟩, inputs, hinputs, ⟨t, digest⟩, hbuild, hfee⟩ := h
  obtain ⟨quote, -, rfl⟩ := round_map_eq_done.mp hfee
  have hkeys := (forall₂_of_mapM hinputs).imp fun _ _ => input_keyed
  obtain ⟨hplan, hpaid⟩ := build_planned hbuild hbad hspend hchange hkeys
  exact ⟨hsel, hplan, hpaid⟩

theorem quoteQi_authorized {q : QiQuote C} (h : quoteQi p r = .ok q) :
    ∃ height sel, r.intent.select r.source.coins
        (r.policy.request r.source.scope.zone height r.intent.amount q.fee) = .ok sel ∧
      q.selected = sel.inputs ∧ q.recipientOutputs = sel.spendOutputs.length ∧
      Authorized r.source.owner r.source.coins r.policy.maxFee q.candidateHeight sel q.transaction
        q.fee ∧
      r.intent.Settles r.source.coins
        (r.policy.request r.source.scope.zone height r.intent.amount q.fee) sel q.transaction := by
  simp only [quoteQi, QiQuoteRequest.validate, eq_ok, not_or] at h
  obtain ⟨⟨⟩, ⟨⟨-, -, -, -, hbad⟩, -⟩, ⟨⟩, -, height, -, -, draft, hconverged, finalHeight, -, hfinal,
    ⟨⟩, -, hok⟩ := h
  obtain ⟨n, fee, hround⟩ := exists_round_of_converge hconverged
  obtain ⟨hsel, hplan, hpaid⟩ := round_planned hround hbad
  obtain ⟨hfunded, hsettles⟩ := QiOperationIntent.select_funded hsel rfl hpaid
  cases hok
  have hfee : draft.selection.fee = fee := hfunded.fee
  refine ⟨height, draft.selection, ?_, rfl, rfl, ?_, ?_⟩
  · rw [hfee]
    exact hsel
  · rw [hfee]
    exact hplan.authorized hfunded hfinal
  · rw [hfee]
    exact hsettles

end Quote

end QuaiSdk.Sdk
