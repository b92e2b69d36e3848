import QuaiSdk.Consensus.QiOperation

/-!
# What validation of a Qi transaction establishes

The shape that `validate_for` leaves behind in each mode, stated once for every later result about
accepted Qi transactions.
-/

namespace QuaiSdk

open Result Wire QiTransaction LedgerAddress List

variable {C : Crypto}

def Address.InZone (a : Address) (ledger : Ledger) (zone : Zone) : Prop :=
  a.ledger = ledger ∧ a.zone = .ok zone

theorem inZone_of_tryFrom {ledger : Ledger} {a : Address} {l : LedgerAddress ledger}
    (h : tryFrom ledger a = .ok l) : l.address = a ∧ a.InZone ledger l.zone := by
  have haddr := address_of_tryFrom h
  refine ⟨haddr, ?_, ?_⟩
  · rw [← haddr]
    exact l.ledger_eq
  · rw [← haddr]
    exact l.zone_eq

structure QiInput.Valid (origin : Zone) (i : QiInput C) : Prop where
  hashZone : i.previousOutput.transactionHash.byte 2 = origin.byte
  hash_ne_zero : i.previousOutput.transactionHash ≠ Hash32.zero
  owner : (C.address i.publicKey).InZone .qi origin

variable {origin : Zone} {mode : QiMode} {t : QiTransaction C} {chainId : U256}
  {inputs : List (QiInput C)} {change : List QiOutput}

theorem checkInputs_spec {ins : List (QiInput C)} {seen : List OutPoint}
    {addresses result : List Address} (h : checkInputs origin ins seen addresses = .ok result) :
    (ins.map QiInput.previousOutput).Nodup ∧ (∀ i ∈ ins, i.previousOutput ∉ seen) ∧
      (∀ i ∈ ins, i.Valid origin) ∧
      ∀ a, a ∈ result ↔ a ∈ addresses ∨ ∃ i ∈ ins, C.address i.publicKey = a := by
  induction ins generalizing seen addresses with
  | nil =>
    cases h
    simp
  | cons i rest ih =>
    simp only [checkInputs, eq_ok, not_or, ne_eq, not_not] at h
    obtain ⟨hnew, owner, howner, ⟨hzone, hzero, hownerZone⟩, hrest⟩ := h
    obtain ⟨haddr, hin⟩ := inZone_of_tryFrom howner
    obtain ⟨hnodup, hfresh, hvalid, hmem⟩ := ih hrest
    refine ⟨?_, ?_, ?_, ?_⟩
    · rw [map_cons, nodup_cons]
      refine ⟨fun hin' => ?_, hnodup⟩
      obtain ⟨j, hj, heq⟩ := mem_map.mp hin'
      exact hfresh j hj (heq ▸ mem_cons_self)
    · exact forall_mem_cons.mpr ⟨hnew, fun j hj => fun hs => hfresh j hj (mem_cons_of_mem _ hs)⟩
    · exact forall_mem_cons.mpr ⟨⟨hzone, hzero, hownerZone ▸ hin⟩, hvalid⟩
    · intro a
      rw [hmem a, haddr]
      simp only [mem_cons, exists_eq_or_imp, eq_comm (a := a)]
      tauto

/-- The result of the output loop, from the addresses used before it and the destination so far. -/
structure OutputsChecked (mode : QiMode) (origin : Zone) (outs : List QiOutput)
    (used : List Address) (before after : Option Address) : Prop where
  quai : ∀ o ∈ outs, o.address.ledger = .quai →
    mode ≠ .ordinary ∧ o.address.zone = .ok origin ∧ after = some o.address
  qi : ∀ o ∈ outs, o.address.ledger = .qi → o.address ∉ used ∧
    ∃ zone, o.address.zone = .ok zone ∧ (mode ≠ .ordinary → zone = origin)
  distinct : outs.Pairwise fun a b =>
    a.address.ledger = .qi ∨ b.address.ledger = .qi → a.address ≠ b.address
  kept : ∀ d, before = some d → after = some d
  found : ∀ d, after = some d → before = some d ∨ ∃ o ∈ outs, o.address = d ∧ d.ledger = .quai

theorem checkOutputs_spec {outs : List QiOutput} {used : List Address}
    {before after : Option Address} (h : checkOutputs mode origin outs used before = .ok after) :
    OutputsChecked mode origin outs used before after := by
  induction outs generalizing used before with
  | nil =>
    cases h
    exact ⟨by simp, by simp, List.Pairwise.nil, fun _ h => h, fun _ h => .inl h⟩
  | cons o rest ih =>
    simp only [checkOutputs, eq_ok] at h
    obtain ⟨zone, hzone, h⟩ := h
    by_cases hledger : o.address.ledger = .quai
    · -- a Quai output: same zone and the same destination as any before it
      simp only [if_pos hledger, ite_error_eq_ok, not_or, not_exists, not_and, ne_eq, not_not] at h
      obtain ⟨hmode, ⟨hz, hsame⟩, hrest⟩ := h
      have hr := ih hrest
      have hafter := hr.kept o.address rfl
      refine ⟨?_, ?_, ?_, ?_, ?_⟩
      · intro x hx hxl
        rcases mem_cons.mp hx with rfl | hx
        · exact ⟨hmode, hz ▸ hzone, hafter⟩
        · exact hr.quai x hx hxl
      · intro x hx hxl
        rcases mem_cons.mp hx with rfl | hx
        · rw [hledger] at hxl
          cases hxl
        · exact hr.qi x hx hxl
      · refine pairwise_cons.mpr ⟨fun x hx hqi heq => ?_, hr.distinct⟩
        rw [heq] at hledger
        rcases hqi with hqi | hqi
        · rw [heq, hledger] at hqi
          cases hqi
        · rw [hledger] at hqi
          cases hqi
      · intro d hd
        rw [hafter, hsame d hd]
      · intro d hd
        rw [hafter] at hd
        cases hd
        exact .inr ⟨o, mem_cons_self, rfl, hledger⟩
    · -- a Qi output: unused so far, and used from here on
      have hqi : o.address.ledger = .qi := by
        cases hl : o.address.ledger with
        | quai => exact absurd hl hledger
        | qi => rfl
      simp only [if_neg hledger, ite_error_eq_ok, not_and, ne_eq, not_not] at h
      obtain ⟨hz, hunused, hrest⟩ := h
      have hr := ih hrest
      refine ⟨?_, ?_, ?_, hr.kept, ?_⟩
      · intro x hx hxl
        rcases mem_cons.mp hx with rfl | hx
        · exact absurd hxl hledger
        · exact hr.quai x hx hxl
      · intro x hx hxl
        rcases mem_cons.mp hx with rfl | hx
        · exact ⟨hunused, zone, hzone, hz⟩
        · obtain ⟨hnot, hex⟩ := hr.qi x hx hxl
          exact ⟨fun hu => hnot (mem_cons_of_mem _ hu), hex⟩
      · refine pairwise_cons.mpr ⟨fun x hx _ heq => ?_, hr.distinct⟩
        have hxl : x.address.ledger = .qi := heq ▸ hqi
        exact (hr.qi x hx hxl).1 (heq ▸ mem_cons_self)
      · intro d hd
        rcases hr.found d hd with h | ⟨x, hx, hxd⟩
        · exact .inl h
        · exact .inr ⟨x, mem_cons_of_mem _ hx, hxd⟩

/-- Everything a successful `validate_for` says about a transaction. -/
structure QiTransaction.Validated (mode : QiMode) (origin : Zone) (t : QiTransaction C) : Prop where
  inputs_ne_nil : t.inputs ≠ []
  outputs_ne_nil : t.outputs ≠ []
  messages : t.messages ≤ maxTransactionMessages
  data : t.checkData mode origin = .ok ()
  outpoints : (t.inputs.map QiInput.previousOutput).Nodup
  inputs : ∀ i ∈ t.inputs, i.Valid origin
  outputs : ∃ used destination, (∀ i ∈ t.inputs, C.address i.publicKey ∈ used) ∧
    OutputsChecked mode origin t.outputs used none destination ∧
    (mode ≠ .ordinary → destination ≠ none)

theorem validateFor_spec (h : t.validateFor mode = .ok origin) : t.Validated mode origin := by
  simp only [validateFor, eq_ok, not_or, not_lt, not_and] at h
  obtain ⟨⟨hins, houts⟩, ⟨hmessages, -⟩, zone, -, ⟨⟩, hdata, used, hused, destination, hout, hdest,
    hzone⟩ := h
  cases hzone
  obtain ⟨hnodup, -, hvalid, hmem⟩ := checkInputs_spec hused
  exact
    { inputs_ne_nil := hins
      outputs_ne_nil := houts
      messages := hmessages
      data := hdata
      outpoints := hnodup
      inputs := hvalid
      outputs := ⟨used, destination, fun i hi => (hmem _).mpr (.inr ⟨i, hi, rfl⟩),
        checkOutputs_spec hout, hdest⟩ }

/-- A conversion or wrapping pays one Quai address of the origin zone, and it is the one found. -/
theorem quaiDestination_spec (hmode : mode ≠ .ordinary) (h : t.Validated mode origin) :
    ∃ destination, quaiDestination t = .ok destination ∧ destination.zone = origin ∧
      (∃ o ∈ t.outputs, o.address = destination.address) ∧
      ∀ o ∈ t.outputs, o.address.ledger = .quai → o.address = destination.address := by
  obtain ⟨used, found, -, hchecked, hsome⟩ := h.outputs
  obtain ⟨d, rfl⟩ := Option.ne_none_iff_exists'.mp (hsome hmode)
  rcases hchecked.found d rfl with habs | ⟨o, ho, rfl, hledger⟩
  · cases habs
  obtain ⟨-, hzone, -⟩ := hchecked.quai o ho hledger
  have htry := tryFrom_address (⟨o.address, origin, hzone, hledger⟩ : QuaiAddress)
  dsimp only at htry
  -- `find_map` stops at some Quai output, and all of them are equal
  have hfind : (t.outputs.findSome? fun o =>
      (tryFrom .quai o.address).toOption).isSome := by
    rw [findSome?_isSome_iff]
    exact ⟨o, ho, by rw [htry]; rfl⟩
  obtain ⟨l, hl⟩ := Option.isSome_iff_exists.mp hfind
  obtain ⟨x, hx, hxl⟩ := exists_of_findSome?_eq_some hl
  cases hx' : tryFrom .quai x.address with
  | error =>
    rw [hx'] at hxl
    cases hxl
  | ok =>
    rw [hx'] at hxl
    cases hxl
    obtain ⟨haddr, hin⟩ := inZone_of_tryFrom hx'
    obtain ⟨-, hxzone, hxsame⟩ := hchecked.quai x hx hin.1
    have hox : o.address = x.address := Option.some.inj hxsame
    refine ⟨l, by rw [quaiDestination, hl, okOr_some], ?_, ⟨x, hx, haddr.symm⟩, ?_⟩
    · have := hin.2
      rw [hxzone] at this
      exact (Except.ok.inj this).symm
    · intro y hy hyl
      have hsame := Option.some.inj (hchecked.quai y hy hyl).2.2
      rw [haddr, ← hox]
      exact hsame.symm

theorem qiOutputs_nodup {zone : Zone} (h : t.validateFor mode = .ok zone) :
    ((t.outputs.filter fun o => o.address.ledger = .qi).map QiOutput.address).Nodup := by
  obtain ⟨used, found, -, hchecked, -⟩ := (validateFor_spec h).outputs
  rw [List.Nodup, pairwise_map]
  apply (hchecked.distinct.filter _).imp_of_mem
  intro a b ha hb hne
  exact hne (.inl (of_decide_eq_true (mem_filter.mp ha).2))

/-- Special denominations to one Quai destination, then Qi change. -/
structure SpecialBuilt (inputs : List (QiInput C)) (special : List Denomination)
    (change : List QiOutput) (destination : QuaiAddress) (t : QiTransaction C) : Prop where
  inputs : t.inputs = inputs
  outputs : t.outputs = special.map (fun d => ⟨destination.address, d⟩) ++ change
  change : ∀ o ∈ change, o.address.ledger = .qi

theorem specialTransaction_spec {missing : String} {special : List Denomination}
    {destination : QuaiAddress} {data : Bytes}
    (h : specialTransaction missing chainId inputs special change destination data = .ok t) :
    SpecialBuilt inputs special change destination t ∧ t.data = data := by
  simp only [specialTransaction, ite_error_eq_ok, not_exists, not_and, not_not] at h
  obtain ⟨-, -, hchange, hok⟩ := h
  cases hok
  exact ⟨⟨rfl, rfl, hchange⟩, rfl⟩

theorem QiConversionTransaction.new_spec {converted : List Denomination}
    {intent : QiConversionIntent} {typed : QiConversionTransaction C}
    (h : QiConversionTransaction.new chainId inputs converted change intent = .ok typed) :
    SpecialBuilt inputs converted change intent.destination typed.transaction ∧
      typed.intent.refund = intent.refund := by
  simp only [QiConversionTransaction.new, fromTransaction, bind_eq_ok] at h
  obtain ⟨t, hbuilt, htyped⟩ := h
  obtain ⟨found, hfound, rfl⟩ := withProof_eq_ok.mp htyped
  obtain ⟨hspecial, hdata⟩ := specialTransaction_spec hbuilt
  refine ⟨hspecial, ?_⟩
  simp only [conversionIntent, bind_eq_ok] at hfound
  obtain ⟨zone, -, destination, -, refund, hrefund, slippage, -, hok⟩ := hfound
  cases hok
  -- the two slippage bytes are dropped before the refund is read
  have hdrop : t.data.drop 2 = intent.refund.bytes := by
    rw [hdata, drop_append_of_le_length (by rw [BigEndian.length_toBytes]),
      drop_of_length_le (by rw [BigEndian.length_toBytes]), nil_append]
  simp only [scopedAddress, eq_ok, hdrop, bytes, Address.tryFrom_bytes, exists_eq_left'] at hrefund
  rw [tryFrom_address] at hrefund
  exact (Except.ok.inj hrefund).symm

theorem QiWrappingTransaction.new_spec {wrapped : List Denomination} {intent : QiWrappingIntent}
    {typed : QiWrappingTransaction C}
    (h : QiWrappingTransaction.new chainId inputs wrapped change intent = .ok typed) :
    SpecialBuilt inputs wrapped change intent.destination typed.transaction := by
  simp only [QiWrappingTransaction.new, fromTransaction, bind_eq_ok] at h
  obtain ⟨t, hbuilt, htyped⟩ := h
  obtain ⟨found, hfound, rfl⟩ := withProof_eq_ok.mp htyped
  exact (specialTransaction_spec hbuilt).1

theorem QiConversionTransaction.exists_validateFor (t : QiConversionTransaction C) :
    ∃ zone, t.transaction.validateFor .conversion = .ok zone := by
  obtain ⟨zone, hzone, -⟩ := bind_eq_ok.mp t.classified
  exact ⟨zone, hzone⟩

theorem QiWrappingTransaction.exists_validateFor (t : QiWrappingTransaction C) :
    ∃ zone, t.transaction.validateFor .wrapping = .ok zone := by
  obtain ⟨zone, hzone, -⟩ := bind_eq_ok.mp t.classified
  exact ⟨zone, hzone⟩

end QuaiSdk
