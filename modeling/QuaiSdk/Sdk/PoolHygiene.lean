import QuaiSdk.Sdk.ChangeAddresses
import QuaiSdk.Sdk.PrepareEffects

/-!
# Hygiene of change pools

A caller may name one of the wallet's own change addresses as a destination or a refund.  A signed
payload can then carry an address that a pool still holds.  In runs where no call does so, live pools
hold change children that no signed payload carries, each of them once: every address in use is in
one pool or in one unsigned prepared object.
-/

namespace QuaiSdk.Sdk

open Result Wallet Storage ScopeTables PublicAddress List
open Method (FailsWithin)

variable {W : HdCrypto} {accounts : Set (AccountPublic W)} {t t' : ScopeTables} {s : QiSession W}

variable {id : ReservationId} {status : Status}

theorem lookup_setStatus_of_ne {other : ReservationId} (h : other ≠ id) :
    (t.setStatus id status).custody.reservations.lookup other =
      t.custody.reservations.lookup other := by
  change (t.custody.reservations.update _).lookup other = _
  rw [Table.lookup_update]
  simp only [h, if_false, Option.map_id']

theorem mem_setStatus {other : ReservationId} :
    other ∈ (t.setStatus id status).custody.reservations ↔ other ∈ t.custody.reservations := by
  rw [← AList.lookup_isSome, ← AList.lookup_isSome]
  change ((t.custody.reservations.update _).lookup other).isSome = true ↔ _
  rw [Table.lookup_update, Option.isSome_map]

theorem not_unsigned_setStatus (h : status ≠ .reserved) : ¬Unsigned (t.setStatus id status) id := by
  rintro ⟨row, hrow, hreserved⟩
  change (t.custody.reservations.update _).lookup id = _ at hrow
  rw [Table.lookup_update, Option.map_eq_some_iff] at hrow
  obtain ⟨old, -, rfl⟩ := hrow
  rw [if_pos rfl] at hreserved
  exact h hreserved

namespace Prepared

variable {p : Prepared W}

def addresses : Prepared W → List Address
  | transfer p => p.transaction.outputs.map QiOutput.address
  | special p => p.transaction.addresses

open scoped Classical in
noncomputable def frozen (accounts : Set (AccountPublic W)) (t : ScopeTables) (p : Prepared W) :
    List Address :=
  if Unsigned t p.id then p.addresses.filter fun a => Own accounts a else []

theorem frozen_congr (h : Unsigned t' p.id ↔ Unsigned t p.id) :
    p.frozen accounts t' = p.frozen accounts t := by
  unfold frozen
  by_cases hu : Unsigned t p.id
  · rw [if_pos hu, if_pos (h.mpr hu)]
  · rw [if_neg hu, if_neg fun hu' => hu (h.mp hu')]

open scoped Classical in
theorem mem_frozen (h : Unsigned t p.id) {a : Address} (ha : a ∈ p.addresses)
    (hown : Own accounts a) : a ∈ p.frozen accounts t := by
  unfold frozen
  rw [if_pos h]
  exact mem_filter.mpr ⟨ha, decide_eq_true hown⟩

/-- What the object takes out of a pool is all it has of the wallet's own. -/
def Pays (accounts : Set (AccountPublic W)) (p : Prepared W) (lost : List PublicAddress) : Prop :=
  ∃ before after, p.addresses = before ++ addressesOf lost ++ after ∧
    ∀ a ∈ before ++ after, ¬Own accounts a

open scoped Classical in
theorem frozen_of_pays {lost : List PublicAddress} (h : Unsigned t p.id) (hpays : p.Pays accounts lost)
    (hlost : ∀ e ∈ lost, ChangeChild accounts e) : p.frozen accounts t = addressesOf lost := by
  obtain ⟨before, after, hsplit, hothers⟩ := hpays
  unfold frozen
  rw [if_pos h, hsplit, filter_append, filter_append]
  have hnone : ∀ l ⊆ before ++ after, l.filter (fun a => decide (Own accounts a)) = [] := by
    intro l hl
    rw [filter_eq_nil_iff]
    intro a ha hown
    exact hothers a (hl ha) (of_decide_eq_true hown)
  rw [hnone before (subset_append_left _ _), hnone after (subset_append_right _ _),
    append_nil, nil_append, filter_eq_self]
  intro a ha
  obtain ⟨e, he, rfl⟩ := mem_map.mp ha
  exact decide_eq_true ⟨e, hlost e he, rfl⟩

theorem sign_eq_ok {signature : W.SchnorrSignature} (h : p.sign s signature t = .ok t') :
    Unsigned t p.id ∧ ∃ op : SignedQiOperation W.toCrypto, op.addresses = p.addresses ∧
      t.commitSignedQiOperation s.store.scope p.id op = .ok t' := by
  cases p with
  | transfer =>
    obtain ⟨⟨signed, t₁⟩, hsign, rfl⟩ := map_eq_ok.mp h
    obtain ⟨hcheck, htransaction, hcommit⟩ := signFrom_eq_ok hsign
    refine ⟨(checkReserved_eq_ok hcheck).1, .transfer signed, ?_, hcommit⟩
    change signed.transaction.outputs.map QiOutput.address ++ [] = _
    rw [htransaction, append_nil]
    rfl
  | special p =>
    obtain ⟨⟨signed, t₁⟩, hsign, rfl⟩ := map_eq_ok.mp h
    obtain ⟨hcheck, ⟨keys, hattach⟩, hcommit⟩ := signSpecialFrom_eq_ok hsign
    exact ⟨(checkReservedSpecial_eq_ok hcheck).1, signed, (attachSpecial_eq_ok hattach).2, hcommit⟩

theorem reclaim_eq_ok {store : StoreHandle} {pool pool' : QiChangePool W}
    (h : p.reclaim store pool t = .ok (pool', t')) :
    ∃ storeInstance scope transaction, transaction.outputs.map QiOutput.address ⊆ p.addresses ∧
      pool.reclaimOutputs store storeInstance scope p.id transaction t = .ok (pool', t') := by
  cases p with
  | transfer p => exact ⟨_, _, p.transaction, fun _ ha => ha, h⟩
  | special p => exact ⟨_, _, p.transaction.transaction, subset_append_left _ _, h⟩

end Prepared

noncomputable def frozenAddresses (accounts : Set (AccountPublic W)) (t : ScopeTables)
    (prepared : List (Prepared W)) : List Address :=
  prepared.flatMap fun p => p.frozen accounts t

theorem frozenAddresses_cons (p : Prepared W) (prepared : List (Prepared W)) :
    frozenAddresses accounts t (p :: prepared) =
      p.frozen accounts t ++ frozenAddresses accounts t prepared := flatMap_cons

structure Clean (accounts : Set (AccountPublic W)) (t : ScopeTables) (entries : List PublicAddress)
    (prepared : List (Prepared W)) : Prop where
  sound : Sound accounts t (addressesOf entries ++ frozenAddresses accounts t prepared)
  children : ∀ e ∈ entries, ChangeChild accounts e
  ids : (prepared.map Prepared.id).Nodup
  known : ∀ p ∈ prepared, p.id ∈ t.custody.reservations

namespace Clean

variable {entries entries' rest : List PublicAddress} {prepared prepared' : List (Prepared W)}
  {p : Prepared W} {pool pool' : QiChangePool W}

theorem dropEntries (h : Clean accounts t (entries ++ rest) prepared) :
    Clean accounts t rest prepared where
  sound := by
    have hsub := ((sublist_append_right entries rest).map address).append_right
      (frozenAddresses accounts t prepared)
    exact h.sound.forget hsub.subperm
  children e he := h.children e (mem_append_right _ he)
  ids := h.ids
  known := h.known

section

variable (h : Clean accounts t entries (p :: prepared))
include h

theorem dropPrepared : Clean accounts t entries prepared where
  sound := by
    have hsub := (sublist_append_right (p.frozen accounts t)
      (frozenAddresses accounts t prepared)).append_left (addressesOf entries)
    exact h.sound.forget hsub.subperm
  children := h.children
  ids := (nodup_cons.mp h.ids).2
  known q hq := h.known q (mem_cons_of_mem _ hq)

theorem id_ne {q : Prepared W} (hq : q ∈ prepared) : q.id ≠ p.id := by
  intro heq
  exact (nodup_cons.mp h.ids).1 (heq ▸ mem_map_of_mem hq)

theorem sound_first : Sound accounts t (p.frozen accounts t ++
      (addressesOf entries ++ frozenAddresses accounts t prepared)) := by
  apply h.sound.perm
  exact perm_append_comm_assoc _ _ _

end

variable (h : Clean accounts t entries prepared)

include h

theorem perm (hentries : entries.Perm entries')
    (hprepared : prepared.Perm prepared') : Clean accounts t entries' prepared' where
  sound := h.sound.perm ((hentries.map _).append (hprepared.flatMap_right _)).symm
  children e he := h.children e (hentries.symm.subset he)
  ids := (hprepared.map _).nodup_iff.mp h.ids
  known p hp := h.known p (hprepared.symm.subset hp)

theorem of_sound (hops : ∀ p ∈ prepared,
      t'.custody.reservations.lookup p.id = t.custody.reservations.lookup p.id)
    (hsound : Sound accounts t' (addressesOf entries' ++ frozenAddresses accounts t prepared))
    (hchildren : ∀ e ∈ entries', ChangeChild accounts e) :
    Clean accounts t' entries' prepared where
  sound := by
    have hfrozen : frozenAddresses accounts t' prepared = frozenAddresses accounts t prepared :=
      flatMap_congr fun p hp => Prepared.frozen_congr (by rw [Unsigned, hops p hp, Unsigned])
    rw [hfrozen]
    exact hsound
  children := hchildren
  ids := h.ids
  known p hp := by
    rw [← AList.lookup_isSome, hops p hp, AList.lookup_isSome]
    exact h.known p hp

theorem cons (hid : ∀ q ∈ prepared, q.id ≠ p.id) (hknown : p.id ∈ t.custody.reservations)
    (hsound : Sound accounts t (addressesOf entries' ++ frozenAddresses accounts t (p :: prepared)))
    (hchildren : ∀ e ∈ entries', ChangeChild accounts e) :
    Clean accounts t entries' (p :: prepared) where
  sound := hsound
  children := hchildren
  ids := by
    rw [map_cons, nodup_cons]
    refine ⟨fun hmem => ?_, h.ids⟩
    obtain ⟨q, hq, heq⟩ := mem_map.mp hmem
    exact hid q hq heq
  known := forall_mem_cons.mpr ⟨hknown, h.known⟩

theorem grow (hadds : t.Adds (fun e => IsChange e.origin → ChangeChild accounts e) t')
    (hcovered : t'.Covered) : Clean accounts t' entries prepared := by
  refine h.of_sound (fun p _ => ?_) (h.sound.grow hadds hcovered) h.children
  rw [hadds.custody]

theorem snapshot (haddresses : t'.addresses = t.addresses)
    (hcursors : t'.derivationCursors = t.derivationCursors)
    (hreleased : t'.releasedChange = t.releasedChange) (hcustody : t'.custody = t.custody) :
    Clean accounts t' entries prepared := by
  refine h.of_sound (fun p _ => ?_) (h.sound.move ?_ haddresses hcursors ?_) h.children
  · rw [hcustody]
  · rw [inPlay, hreleased]
    exact .refl _
  · rw [hcustody]

/-- Where nothing is committed between the accesses of an attempt, its frame only clears snapshots. -/
theorem frame {attempts : List (Attempt W)} (hframe : Frame attempts t t')
    (hothers : ∀ a ∈ attempts, ∀ access t, a.others access t = t) :
    Clean accounts t' entries prepared := by
  induction hframe with
  | refl => exact h
  | tail _ hlast ih =>
    cases hlast with
    | others a ha access =>
      rw [hothers a ha access]
      exact ih
    | cleared => exact ih.snapshot rfl rfl rfl rfl

theorem allocate {account : AccountPublic W} {count attempts : ℕ} {cancelled : ℕ → ℕ → Bool}
    {result : Except QiError (QiChangePool W)}
    (haccount : account ∈ accounts)
    (hallocate : QiChangePool.allocate s.store account count attempts cancelled t = (result, t')) :
    match result with
    | .error _ => Clean accounts t' entries prepared
    | .ok pool => Clean accounts t' (pool.addresses ++ entries) prepared := by
  obtain ⟨hcustody, hpooled⟩ := allocate_pooled haccount h.sound hallocate
  have hops : ∀ p ∈ prepared,
      t'.custody.reservations.lookup p.id = t.custody.reservations.lookup p.id := by
    intro p _
    rw [hcustody]
  cases result with
  | error => exact h.of_sound hops hpooled h.children
  | ok pool =>
    obtain ⟨hsound, hchildren⟩ := hpooled
    refine h.of_sound hops ?_ fun e he => ?_
    · rw [addressesOf, map_append, append_assoc]
      exact hsound
    · rcases mem_append.mp he with he | he
      · exact hchildren e he
      · exact h.children e he

omit h

theorem release (h : Clean accounts t (pool.addresses ++ rest) prepared)
    (hrelease : pool.release s.store t = .ok t') : Clean accounts t' rest prepared := by
  have hsound := h.sound
  rw [addressesOf, map_append, append_assoc] at hsound
  obtain ⟨hsound', hcustody⟩ := release_sound hsound hrelease
  refine h.of_sound (fun p _ => ?_) hsound' fun e he => h.children e (mem_append_right _ he)
  rw [hcustody]

theorem freeze {attempts : List (Attempt W)} {inputs : List (QiInput W.toCrypto)}
    {lost : List PublicAddress} {w w' : Workspace W}
    (h : Clean accounts t (w.pool.addresses ++ rest) prepared)
    (hcommitted : Committed attempts p.id inputs lost t w w') (hpays : p.Pays accounts lost) :
    Clean accounts w'.tables (w'.pool.addresses ++ rest) (p :: prepared) := by
  obtain ⟨qiClaims, hwrite⟩ := hcommitted.acquired.write
  obtain ⟨-, hlost⟩ := hcommitted.pool
  rw [hwrite]
  rw [hlost] at h
  have hnew : ∀ q ∈ prepared, q.id ≠ p.id := by
    intro q hq heq
    have hknown := h.known q hq
    rw [← AList.lookup_isSome, heq, hcommitted.acquired.fresh] at hknown
    cases hknown
  have hchildren : ∀ e ∈ lost ++ (w'.pool.addresses ++ rest), ChangeChild accounts e := by
    intro e he
    rw [← append_assoc] at he
    exact h.children e he
  have hold : Clean accounts (t.withCustody fun c =>
      { c with qiClaims, reservations := c.reservations.insert p.id ⟨.qi, .reserved⟩ })
      ((lost ++ w'.pool.addresses) ++ rest) prepared :=
    h.of_sound (fun q hq => AList.lookup_insert_ne (hnew q hq))
      (h.sound.move (.refl _) rfl rfl rfl) h.children
  have hunsigned : Unsigned (t.withCustody fun c =>
      { c with qiClaims, reservations := c.reservations.insert p.id ⟨.qi, .reserved⟩ }) p.id :=
    ⟨⟨.qi, .reserved⟩, AList.lookup_insert _, rfl⟩
  have hfrozen := Prepared.frozen_of_pays hunsigned hpays
    fun e he => hchildren e (mem_append_left _ he)
  refine hold.cons hnew ((AList.mem_insert _).mpr (.inl rfl)) (hold.sound.perm ?_)
    fun e he => hchildren e (mem_append_right _ he)
  -- the lost entries stand before the pool's own; they go behind all entries
  rw [frozenAddresses_cons, hfrozen, ← append_assoc,
    append_assoc lost, addressesOf, addressesOf, addressesOf, ← map_append]
  exact (perm_append_comm.map _).append_right _

theorem sign {signature : W.SchnorrSignature} (h : Clean accounts t entries (p :: prepared))
    (hsign : p.sign s signature t = .ok t') : Clean accounts t' entries (p :: prepared) := by
  obtain ⟨hunsigned, op, haddresses, hcommit⟩ := Prepared.sign_eq_ok hsign
  simp only [commitSignedQiOperation, eq_ok, orInvalid] at hcommit
  obtain ⟨payload, hpayload, hash, -, -, ⟨⟩, -, hcommit⟩ := hcommit
  obtain ⟨row, hrow, hreserved⟩ := hunsigned
  obtain rfl | ht' := commitPayload_eq_ok hrow hreserved hcommit
  · exact h
  · have hsound : Sound accounts t' (addressesOf entries ++ frozenAddresses accounts t prepared) := by
      subst ht'
      exact h.sound_first.store (op.decode_signedBytes hpayload)
        (fun a ha => Prepared.mem_frozen ⟨row, hrow, hreserved⟩ (haddresses ▸ ha))
        (List.filter_sublist.map _) rfl rfl rfl
    have hrest : Clean accounts t' entries prepared := by
      refine h.dropPrepared.of_sound (fun q hq => ?_) hsound h.children
      rw [ht', lookup_setStatus_of_ne (h.id_ne hq)]
      rfl
    subst ht'
    refine hrest.cons (fun q hq => h.id_ne hq) (mem_setStatus.mpr (h.known p mem_cons_self)) ?_
      h.children
    rw [frozenAddresses_cons, Prepared.frozen,
      if_neg (not_unsigned_setStatus fun hs => by cases hs), nil_append]
    exact hrest.sound

theorem reclaim (h : Clean accounts t (pool.addresses ++ rest) (p :: prepared))
    (hreclaim : p.reclaim s.store pool t = .ok (pool', t')) :
    Clean accounts t' (pool'.addresses ++ rest) prepared := by
  obtain ⟨storeInstance, scope, transaction, houtputs, hreclaim⟩ := p.reclaim_eq_ok hreclaim
  obtain ⟨hunsigned, ht'⟩ := releaseUnsigned_eq_ok (reclaimOutputs_releaseUnsigned hreclaim)
  have hs := h.sound_first
  rw [addressesOf, map_append, append_assoc] at hs
  obtain ⟨hsound, hchildren⟩ := reclaimOutputs_sound hs
    (fun e he => h.children e (mem_append_left _ he))
    (fun a ha => Prepared.mem_frozen hunsigned (houtputs ha)) hreclaim
  refine h.dropPrepared.of_sound (fun q hq => ?_) ?_ fun e he => ?_
  · rw [ht', lookup_setStatus_of_ne (h.id_ne hq)]
    rfl
  · rw [addressesOf, map_append, append_assoc]
    exact hsound
  · rcases mem_append.mp he with he | he
    · exact hchildren e he
    · exact h.children e (mem_append_right _ he)

end Clean

section Prepares

variable {first second : Attempt W} {attempts : List (Attempt W)} {id : ReservationId}
  {policy : QiPolicy} {w w' : Workspace W}

/-- The prepare wrote the claim of `p`, and its pool lost what `p` has of the wallet's own. -/
def Freezes (accounts : Set (AccountPublic W)) (attempts : List (Attempt W)) (p : Prepared W)
    (w w' : Workspace W) : Prop :=
  ∃ inputs lost before, Committed attempts p.id inputs lost before w w' ∧ p.Pays accounts lost

theorem pays_transfer {intent : QiIntent} {crossZone : Bool} {p : PreparedQiTransaction W}
    (hforeign : ∀ d ∈ intent.destinations, ¬Own accounts d.address)
    (h : s.prepareTransfer first second id intent policy crossZone w = (.ok p, w')) :
    Freezes accounts [first, second] (.transfer p) w w' := by
  obtain ⟨lost, before, hcommitted, rfl, -, houtputs⟩ := prepareTransfer_committed h
  refine ⟨_, lost, before, hcommitted,
    (intent.destinations.map LedgerAddress.address).take p.recipientOutputs, [], ?_, fun x hx => ?_⟩
  · rw [append_nil]
    exact houtputs
  · rw [append_nil] at hx
    obtain ⟨d, hd, rfl⟩ := mem_map.mp (mem_of_mem_take hx)
    exact hforeign d hd

/-- Neither converted outputs nor an owner contract can be the wallet's own. -/
theorem pays_special {amount : ℕ} {intent : QiSpecialIntent} {mode : QiSession.FeeMode}
    {p : PreparedQiOperation W}
    (hforeign : ∀ i, intent = .conversion i → ¬Own accounts i.refund.address)
    (h : s.prepareSpecial first second id amount intent mode policy w = (.ok p, w')) :
    Freezes accounts [first, second] (.special p) w w' := by
  obtain ⟨lost, before, hcommitted, rfl, inputs, spend, change, hpayload, hlost⟩ :=
    prepareSpecial_committed h
  obtain ⟨hbuilt, -⟩ := QiSession.specialPayload_built hpayload
  have houtputs : p.transaction.transaction.outputs.map QiOutput.address =
      spend.map (fun _ => intent.destination.address) ++ addressesOf lost := by
    rw [hbuilt.outputs, map_append, hlost, map_map]
    rfl
  have hdata : ¬Own accounts p.transaction.dataAddress := by
    cases intent with
    | conversion i =>
      obtain ⟨c, hc, htransaction⟩ := map_eq_ok.mp hpayload
      rw [← htransaction]
      change ¬Own accounts c.intent.refund.address
      rw [(QiConversionTransaction.new_spec hc).2]
      exact hforeign i rfl
    | wrapping =>
      obtain ⟨w, -, htransaction⟩ := map_eq_ok.mp hpayload
      rw [← htransaction]
      exact not_own_of_quai _
  refine ⟨_, lost, before, hcommitted, spend.map fun _ => intent.destination.address,
    [p.transaction.dataAddress], congrArg (· ++ _) houtputs, fun x hx => ?_⟩
  rcases mem_append.mp hx with hx | hx
  · obtain ⟨d, -, rfl⟩ := mem_map.mp hx
    exact not_own_of_quai _
  · rw [mem_singleton.mp hx]
    exact hdata

theorem pays_sweep {mode : SweepMode} {p : PreparedQiTransaction W}
    (h : s.prepareSweep first second id mode policy w = (.ok p, w')) :
    Freezes accounts [first, second] (.transfer p) w w' := by
  obtain ⟨lost, before, hcommitted, rfl, houtputs⟩ := prepareSweep_committed h
  refine ⟨_, lost, before, hcommitted, [], [], ?_, fun x hx => by cases hx⟩
  rw [append_nil]
  exact houtputs

end Prepares

/-- A call that uses the given accounts and names none of their change addresses as somebody
else's. -/
def Respects (accounts : Set (AccountPublic W)) : PoolAction W → Prop
  | .allocate account _ _ _ => account ∈ accounts
  | .prepare _ _ _ _ intent _ => ∀ d ∈ intent.destinations, ¬Own accounts d.address
  | .prepareCrossZone _ _ _ _ intent _ => ∀ d ∈ intent.destinations, ¬Own accounts d.address
  | .prepareSpecial _ _ _ _ _ intent _ _ =>
    ∀ i, intent = .conversion i → ¬Own accounts i.refund.address
  | .refresh (.importMetadata _ addresses) =>
    ∀ e ∈ addresses, IsChange e.origin → ChangeChild accounts e
  | .refresh (.commitDiscovery _ reports) => ∀ report ∈ reports, report.coin = .qi →
    ∀ account, AccountPublic.importXpub W report.accountXpub .qi report.account = .ok account →
      account ∈ accounts
  | _ => True

namespace PoolState

variable {σ : PoolState W}

def Tidy (accounts : Set (AccountPublic W)) (σ : PoolState W) : Prop :=
  Clean accounts σ.tables σ.entries σ.prepared

variable {k : ℕ}

theorem entries_perm {pools : List (QiChangePool W)} {pool : QiChangePool W}
    (h : pools[k]? = some pool) : (pools.flatMap QiChangePool.addresses).Perm
      (pool.addresses ++ (pools.eraseIdx k).flatMap QiChangePool.addresses) := by
  obtain ⟨hk, rfl⟩ := List.getElem?_eq_some_iff.mp h
  exact (List.getElem_cons_eraseIdx_perm hk).symm.flatMap_right _

theorem entries_set_perm {pools : List (QiChangePool W)} {pool : QiChangePool W}
    (h : pools[k]? = some pool) (pool' : QiChangePool W) :
    ((pools.set k pool').flatMap QiChangePool.addresses).Perm
      (pool'.addresses ++ (pools.eraseIdx k).flatMap QiChangePool.addresses) := by
  obtain ⟨hk, -⟩ := List.getElem?_eq_some_iff.mp h
  exact (List.set_perm_cons_eraseIdx hk _).flatMap_right _

theorem changeChild_of_derive {account : AccountPublic W} {change : Bool} {index : ℕ}
    {e : PublicAddress} (h : derive account change index = .ok e)
    (hchange : IsChange e.origin) (haccount : account.coin = .qi → account ∈ accounts) :
    ChangeChild accounts e := by
  rw [derive_origin h] at hchange
  obtain ⟨key, coin, number⟩ := account
  cases coin with
  | quai => cases hchange
  | qi =>
    cases change with
    | false => cases hchange
    | true => exact ⟨_, haccount rfl, rfl, index, h⟩

variable (h : σ.Tidy accounts)

include h

theorem freeze_tidy {first second : Provider W.toCrypto} {α : Type} {wrap : α → Prepared W}
    {prepare : Method QiError (Workspace W) α}
    (hok : ∀ x w w', prepare w = (.ok x, w') →
      Freezes accounts [attempt first, attempt second] (wrap x) w w')
    (hfails : FailsWithin (Framed [attempt first, attempt second]) prepare) :
    (σ.freeze k (as wrap prepare)).Tidy accounts := by
  have hothers : ∀ a ∈ [(attempt first : Attempt W), attempt second],
      ∀ access t, a.others access t = t := by simp [attempt]
  rw [freeze]
  split
  · exact h
  · rename_i pool hpool
    have hclean := h.perm (entries_perm hpool) (.refl _)
    split
    · rename_i p w hrun
      obtain ⟨x, hprepare, rfl⟩ := Method.map_eq_ok.mp hrun
      obtain ⟨inputs, lost, before, hcommitted, hpays⟩ := hok x _ w hprepare
      exact ((hclean.frame hcommitted.found hothers).freeze hcommitted hpays).perm
        (entries_set_perm hpool _).symm (perm_append_singleton _ _).symm
    · rename_i e w hrun
      obtain ⟨hsame, hframe⟩ := hfails.map wrap _ _ _ hrun
      refine (hclean.frame hframe hothers).perm ?_ (.refl _)
      have hset := entries_set_perm hpool w.pool
      rw [hsame] at hset ⊢
      exact hset.symm

theorem signAt_tidy {j : ℕ} {signature : W.SchnorrSignature} :
    (σ.signAt s j signature).Tidy accounts := by
  unfold signAt
  split
  · exact h
  · rename_i p hp
    obtain ⟨hj, rfl⟩ := List.getElem?_eq_some_iff.mp hp
    have hperm := (List.getElem_cons_eraseIdx_perm hj).symm
    cases hsign : σ.prepared[j].sign s signature σ.tables with
    | error => exact h
    | ok => exact ((h.perm (.refl _) hperm).sign hsign).perm (.refl _) hperm.symm

theorem reclaimAt_tidy {j : ℕ} : (σ.reclaimAt s.store k j).Tidy accounts := by
  unfold reclaimAt
  split
  · rename_i pool p hpool hp
    obtain ⟨hj, rfl⟩ := List.getElem?_eq_some_iff.mp hp
    have hclean := h.perm (entries_perm hpool) (List.getElem_cons_eraseIdx_perm hj).symm
    split
    · rename_i pool' t' hreclaim
      exact (hclean.reclaim hreclaim).perm (entries_set_perm hpool _).symm (.refl _)
    · exact hclean.dropPrepared.perm (entries_perm hpool).symm (.refl _)
  · exact h

theorem releaseAt_tidy : (σ.releaseAt s.store k).Tidy accounts := by
  unfold releaseAt
  split
  · exact h
  · rename_i pool hpool
    have hclean := h.perm (entries_perm hpool) (.refl _)
    cases hrelease : pool.release s.store σ.tables with
    | error => exact hclean.dropEntries
    | ok => exact hclean.release hrelease

theorem refresh_tidy {call : Refresh}
    (hrespects : Respects accounts (.refresh call : PoolAction W)) :
    (σ.next s (.refresh call)).Tidy accounts := by
  simp only [next]
  cases hcall : call.exec W s.store.scope σ.tables with
  | error => exact h
  | ok =>
    cases call with
    | importMetadata =>
      obtain ⟨⟨generation, t₁⟩, himport, rfl⟩ := map_eq_ok.mp hcall
      exact h.grow (importMetadata_adds hrespects himport)
        ((importMetadata_moves [] himport).2.covered h.sound.covered)
    | commitDiscovery =>
      obtain ⟨⟨generation, t₁⟩, hcommit, rfl⟩ := map_eq_ok.mp hcall
      refine h.grow (commitDiscovery_adds (fun report hreport account haccount _ _ _
        hderive hchange => changeChild_of_derive hderive hchange fun hcoin => ?_) hcommit)
        ((commitDiscovery_moves [] hcommit).2.covered h.sound.covered)
      obtain ⟨hsame, -⟩ := AccountPublic.importXpub_eq_ok haccount
      rw [hcoin] at hsame
      rw [← hsame] at haccount
      exact hrespects report hreport hsame.symm account haccount
    | replaceSnapshot snapshot =>
      obtain ⟨⟨generation, t₁⟩, hreplace, rfl⟩ := map_eq_ok.mp hcall
      simp only [replaceSnapshot, eq_ok] at hreplace
      obtain ⟨-, checkpoint, -, -, next, -, -, rows, -, hwrite⟩ := hreplace
      rw [writeSnapshot] at hwrite
      split at hwrite
      all_goals
        cases hwrite
        exact h.snapshot rfl rfl rfl rfl

theorem next_tidy {action : PoolAction W} (hrespects : Respects accounts action) :
    (σ.next s action).Tidy accounts := by
  cases action with
  | allocate =>
    simp only [next]
    split
    · rename_i pool t' hallocate
      refine (h.allocate hrespects hallocate).perm ?_ (.refl _)
      rw [entries, entries, flatMap_append, flatMap_singleton]
      exact perm_append_comm
    · rename_i e t' hallocate
      exact h.allocate hrespects hallocate
  | prepare _ _ _ id intent policy =>
    exact freeze_tidy h (fun _ _ _ => pays_transfer hrespects)
      (QiSession.retried_fails (s.transfer_reads id intent policy false) _ _)
  | prepareCrossZone =>
    exact freeze_tidy h
      (fun _ _ _ hok => pays_transfer hrespects (QiSession.prepareCrossZone_eq_ok hok))
      (QiSession.prepareCrossZone_fails _ _ _)
  | prepareSpecial _ _ _ id amount intent mode policy =>
    exact freeze_tidy h (fun _ _ _ => pays_special hrespects)
      (QiSession.retried_fails (s.special_reads id amount intent mode policy) _ _)
  | prepareSweep _ _ _ id mode policy =>
    exact freeze_tidy h (fun _ _ _ => pays_sweep)
      (QiSession.retried_fails (s.sweep_reads id mode policy) _ _)
  | sign => exact signAt_tidy h
  | reclaim => exact reclaimAt_tidy h
  | release => exact releaseAt_tidy h
  | dropPool k =>
    cases hpool : σ.pools[k]? with
    | none =>
      change Clean accounts σ.tables ((σ.pools.eraseIdx k).flatMap _) σ.prepared
      rw [eraseIdx_of_length_le (getElem?_eq_none_iff.mp hpool)]
      exact h
    | some => exact (h.perm (entries_perm hpool) (.refl _)).dropEntries
  | discard j =>
    cases hp : σ.prepared[j]? with
    | none =>
      change Clean accounts σ.tables σ.entries (σ.prepared.eraseIdx j)
      rw [eraseIdx_of_length_le (getElem?_eq_none_iff.mp hp)]
      exact h
    | some =>
      obtain ⟨hj, rfl⟩ := List.getElem?_eq_some_iff.mp hp
      exact (h.perm (.refl _) (List.getElem_cons_eraseIdx_perm hj).symm).dropPrepared
  | refresh => exact refresh_tidy h hrespects

theorem Tidy.hygienic : σ.Hygienic where
  change e he := by
    obtain ⟨account, -, hcoin, index, hderive⟩ := h.children e he
    exact ⟨account, index, hcoin, hderive⟩
  unsigned e he := h.sound.unsigned _ (mem_append_left _ (mem_append_left _ (mem_map_of_mem he)))
  distinct := (nodup_append.mp (nodup_append.mp h.sound.distinct).1).1

omit h

/-- Pools stay clean as long as no call names one of the wallet's change addresses as a
destination or a refund. -/
theorem pools_hygienic (W : HdCrypto) (s : QiSession W) (accounts : Set (AccountPublic W))
    (actions : List (PoolAction W)) (h : ∀ action ∈ actions, Respects accounts action) :
    (after s actions).Hygienic := by
  have hempty : (initial W).Tidy accounts :=
    ⟨sound_empty, by simp [entries, initial], nodup_nil, by simp [initial]⟩
  have htidy : (after s actions).Tidy accounts :=
    Run.run_invariant (G := fun _ action => Respects accounts action)
      (fun σ _ (htidy : σ.Tidy accounts) => next_tidy htidy) hempty actions
      fun before action rest hsplit => h action (by rw [hsplit]; simp)
  exact htidy.hygienic

end PoolState

def carried (C : Crypto) (c : Custody) (id : ReservationId) : List Address :=
  match c.signedPayloads.lookup id with
  | none => []
  | some stored =>
    match SignedQiOperation.decode C stored.payload with
    | .error _ => []
    | .ok op => op.addresses

theorem inSignedPayload_of_carried {C : Crypto} {c : Custody} {a : Address} (h : a ∈ carried C c id) :
    InSignedPayload C c a := by
  unfold carried at h
  split at h
  · cases h
  · rename_i stored hstored
    split at h
    · cases h
    · rename_i op hop
      exact ⟨id, stored, op, hstored, hop, h⟩

def funding : List (PoolAction coinWallet) :=
  [.refresh (.importMetadata 0 [⟨ownerAddress, coinOwnerKey, .importedPublic⟩]),
    .allocate System.changeAccount 1 1 fun _ _ => false,
    .allocate System.changeAccount 0 1 fun _ _ => false,
    .refresh (.replaceSnapshot ⟨sampleScope, 2, some walletCheckpoint,
      [walletCoin]⟩)]

def selfPayment : List (PoolAction coinWallet) :=
  funding ++
    [.prepare 1 (node 400) (node 400) walletId
      ⟨100, [⟨System.changeAddress, .cyprus1, by decide +kernel, by decide +kernel⟩]⟩
      (walletPolicy 400),
    .sign 0 ⟨ownPaymentSignature, by decide +kernel⟩]

def payment : List (PoolAction coinWallet) :=
  funding ++
    [.prepare 0 (node 390) (node 390) walletId ⟨100, [recipient]⟩ (walletPolicy 390),
    .sign 0 ⟨paymentSignature, paymentSignature_length⟩]

/-- A signed payload carries an address that a live pool would hand out as change. -/
theorem pooled_address_signed : ¬(PoolState.after walletSession selfPayment).Hygienic := by
  intro h
  have hshared : ∃ e ∈ (PoolState.after walletSession selfPayment).entries, e.address ∈
      carried coinWallet.toCrypto (PoolState.after walletSession selfPayment).tables.custody
        walletId := by decide +kernel
  obtain ⟨e, he, hcarried⟩ := hshared
  exact h.unsigned e he (inSignedPayload_of_carried hcarried)

theorem own_changeAccount {a : Address} (h : Own (W := coinWallet) {System.changeAccount} a) :
    a = System.changeAddress := by
  obtain ⟨e, ⟨account, rfl, -, index, hderive⟩, rfl⟩ := h
  cases index with
  | zero =>
    have hchild : derive (W := coinWallet) System.changeAccount true 0 = .ok System.changeChild := by
      decide +kernel
    cases hderive
    rfl
  | succ index =>
    have hnone : coinWallet.childKey (System.changeXpub, true) (index + 1) = none := rfl
    simp only [derive, AccountPublic.deriveAddress, AccountPublic.childPublicKey, eq_ok] at hderive
    obtain ⟨d, ⟨branch, hbranch, key, ⟨-, hkey⟩, -⟩, -⟩ := hderive
    cases hbranch
    exact absurd (hnone.symm.trans hkey) (Option.some_ne_none _).symm

/-- The payment with change meets the condition: it is stored, and it took the pool's address. -/
theorem pools_hygienic_payment :
    (carried coinWallet.toCrypto (PoolState.after walletSession payment).tables.custody
      walletId).length = 2 ∧ (PoolState.after walletSession payment).Hygienic := by
  refine ⟨by decide +kernel, PoolState.pools_hygienic coinWallet walletSession
    {System.changeAccount} payment fun action haction => ?_⟩
  simp only [payment, funding, cons_append, nil_append, mem_cons, not_mem_nil, or_false] at haction
  rcases haction with rfl | rfl | rfl | rfl | rfl | rfl
  · intro e he hchange
    rw [mem_singleton.mp he] at hchange
    cases hchange
  · exact Set.mem_singleton _
  · exact Set.mem_singleton _
  · exact trivial
  · intro d hd hown
    rw [mem_singleton.mp hd] at hown
    exact absurd (own_changeAccount hown) (by decide +kernel)
  · exact trivial

end QuaiSdk.Sdk
