import QuaiSdk.Consensus.QiClassification
import QuaiSdk.Sdk.ChangePools
import QuaiSdk.Storage.Released

/-!
# Where a change address can be

The wallet's accounts have change children; some of their addresses are in use, in a live pool or in
an unsigned prepared object, and some are stored as released.  `Sound accounts t held` says of the
addresses in use that, together with the released ones, they are distinct and recorded and that no
signed payload carries them.  Every write to the store moves addresses between these places or takes
them out of all of them for good.
-/

namespace QuaiSdk.Sdk

open Result Wallet Storage QiChangePool ScopeTables List

variable {W : HdCrypto} {accounts : Set (AccountPublic W)} {t t' : ScopeTables}
  {held held' : List Address} {a : Address}

def ChangeChild (accounts : Set (AccountPublic W)) (e : PublicAddress) : Prop :=
  ∃ account ∈ accounts, account.coin = .qi ∧
    ∃ index, PublicAddress.derive account true index = .ok e

def Own (accounts : Set (AccountPublic W)) (a : Address) : Prop :=
  ∃ e, ChangeChild accounts e ∧ e.address = a

def IsChange : KeyOrigin → Prop
  | .bip44 .qi _ true _ => True
  | _ => False

theorem isChange_of_owns {pool : QiChangePool W} {e : PublicAddress} (h : pool.owns e = true) :
    IsChange e.origin := by
  unfold owns at h
  split at h
  · rename_i heq
    rw [heq]
    exact trivial
  · cases h

theorem Own.ledger (h : Own accounts a) : a.ledger = .qi := by
  obtain ⟨e, ⟨account, -, hcoin, index, hderive⟩, rfl⟩ := h
  simp only [PublicAddress.derive, eq_ok] at hderive
  obtain ⟨d, hd, rfl⟩ := hderive
  simp only [AccountPublic.deriveAddress, bind_eq_ok, AccountPublic.addressFromKey] at hd
  obtain ⟨branch, -, key, -, hd⟩ := hd
  split at hd
  · cases hd
  · simp only [ite_error_eq_ok, not_not, hcoin] at hd
    obtain ⟨hledger, hok⟩ := hd
    cases hok
    exact hledger

theorem not_own_of_quai (q : QuaiAddress) : ¬Own accounts q.address := by
  intro h
  have hledger := h.ledger
  rw [q.ledger_eq] at hledger
  cases hledger

def inPlay (t : ScopeTables) (held : List Address) : List Address :=
  held ++ t.releasedChange.values

structure Sound (accounts : Set (AccountPublic W)) (t : ScopeTables) (held : List Address) : Prop where
  covered : t.Covered
  recorded : ∀ a row, t.addresses.lookup a = some row → IsChange row.origin →
    ChangeChild accounts ⟨a, row.publicKey, row.origin⟩
  distinct : (inPlay t held).Nodup
  known : ∀ a ∈ inPlay t held, a ∈ t.addresses ∧ Own accounts a
  unsigned : ∀ a ∈ inPlay t held, ¬InSignedPayload W.toCrypto t.custody a
  -- an allocation returns an address without a row, so a signed own address must have one
  named : ∀ a, Own accounts a → InSignedPayload W.toCrypto t.custody a → a ∈ t.addresses

theorem sound_empty : Sound accounts .empty [] where
  covered b next index hnext := by cases hnext
  recorded a row hrow := by cases hrow
  distinct := nodup_nil
  known a ha := by cases ha
  unsigned a ha := by cases ha
  named a _ hsigned := by
    obtain ⟨id, stored, op, hstored, -⟩ := hsigned
    cases hstored

namespace Sound

section

variable (h : Sound accounts t held)
include h

theorem move (hplay : (inPlay t' held').Subperm (inPlay t held))
    (haddresses : t'.addresses = t.addresses)
    (hcursors : t'.derivationCursors = t.derivationCursors)
    (hpayloads : t'.custody.signedPayloads = t.custody.signedPayloads) :
    Sound accounts t' held' := by
  have hsigned : ∀ a, InSignedPayload W.toCrypto t'.custody a →
      InSignedPayload W.toCrypto t.custody a := by
    intro a ha
    rw [InSignedPayload, hpayloads] at ha
    exact ha
  refine ⟨?_, ?_, ?_, ?_, ?_, ?_⟩
  · intro b next index hnext hr
    rw [cursor, hcursors] at hnext
    rw [ScopeTables.Recorded, haddresses] at hr
    exact h.covered b next index hnext hr
  · rw [haddresses]
    exact h.recorded
  · obtain ⟨l, hperm, hsub⟩ := hplay
    exact hperm.nodup_iff.mp (hsub.nodup h.distinct)
  · rw [haddresses]
    exact fun a ha => h.known a (hplay.subset ha)
  · exact fun a ha hin => h.unsigned a (hplay.subset ha) (hsigned a hin)
  · rw [haddresses]
    exact fun a hown hin => h.named a hown (hsigned a hin)

theorem forget (hsub : held'.Subperm held) : Sound accounts t held' :=
  h.move ((subperm_append_right _).mpr hsub) rfl rfl rfl

theorem perm (hperm : held'.Perm held) : Sound accounts t held' := h.forget hperm.subperm

section

variable (hadds : t.Adds (fun e => IsChange e.origin → ChangeChild accounts e) t')
  (hcovered : t'.Covered)
include hadds hcovered

theorem grow : Sound accounts t' held := by
  have hplay : inPlay t' held = inPlay t held := by rw [inPlay, hadds.releasedChange, inPlay]
  refine ⟨hcovered, fun a row hrow hchange => ?_, hplay ▸ h.distinct, fun a ha => ?_, fun a ha => ?_,
    fun a hown hin => ?_⟩
  · rcases hadds.added a row hrow with hold | hnew
    · exact h.recorded a row hold hchange
    · exact hnew hchange
  · rw [hplay] at ha
    exact ⟨hadds.mem (h.known a ha).1, (h.known a ha).2⟩
  · rw [hplay] at ha
    rw [hadds.custody]
    exact h.unsigned a ha
  · rw [hadds.custody] at hin
    exact hadds.mem (h.named a hown hin)

/-- A recorded own address that had no row before is in no place and in no payload. -/
theorem fresh (hown : Own accounts a) (hmem : a ∈ t'.addresses)
    (hnew : a ∉ t.addresses) : Sound accounts t' (a :: held) := by
  have hgrown := h.grow hadds hcovered
  have hplay : inPlay t' held = inPlay t held := by rw [inPlay, hadds.releasedChange, inPlay]
  refine ⟨hcovered, hgrown.recorded, ?_, ?_, ?_, hgrown.named⟩
  · refine nodup_cons.mpr ⟨fun hin => ?_, hgrown.distinct⟩
    change a ∈ inPlay t' held at hin
    rw [hplay] at hin
    exact hnew (h.known a hin).1
  · exact forall_mem_cons.mpr ⟨⟨hmem, hown⟩, hgrown.known⟩
  · intro b hb hin
    rcases mem_cons.mp hb with rfl | hb
    · rw [hadds.custody] at hin
      exact hnew (h.named b hown hin)
    · exact hgrown.unsigned b hb hin

end

end

/-- A stored payload takes the own addresses it carries out of use. -/
theorem store {own : List Address} {id : ReservationId} {kind : OperationKind} {payload : Bytes}
    {op : SignedQiOperation W.toCrypto} (h : Sound accounts t (own ++ held))
    (hdecode : SignedQiOperation.decode W.toCrypto payload = .ok op)
    (hop : ∀ a ∈ op.addresses, Own accounts a → a ∈ own)
    (hreleased : t'.releasedChange.values.Sublist t.releasedChange.values)
    (haddresses : t'.addresses = t.addresses)
    (hcursors : t'.derivationCursors = t.derivationCursors)
    (hpayloads : t'.custody.signedPayloads = t.custody.signedPayloads.insert id ⟨kind, payload⟩) :
    Sound accounts t' held := by
  have hplay : (inPlay t' held).Sublist (inPlay t held) := hreleased.append_left held
  have hold : Sound accounts t held := h.forget (sublist_append_right own held).subperm
  -- the addresses of a payload are old, or those of the new operation
  have hsigned : ∀ a, InSignedPayload W.toCrypto t'.custody a →
      InSignedPayload W.toCrypto t.custody a ∨ a ∈ op.addresses := by
    rintro a ⟨id', stored, op', hstored, hdecode', hmem⟩
    rw [hpayloads, Table.lookup_insert_eq] at hstored
    split at hstored
    · cases hstored
      rw [hdecode, Except.ok.injEq] at hdecode'
      subst hdecode'
      exact .inr hmem
    · exact .inl ⟨id', stored, op', hstored, hdecode', hmem⟩
  have hmoved : Sound accounts { t' with custody := t.custody } held :=
    hold.move hplay.subperm haddresses hcursors rfl
  refine ⟨hmoved.covered, hmoved.recorded, hmoved.distinct, hmoved.known, fun a ha hin => ?_,
    fun a hown hin => ?_⟩
  · have hmem := hplay.subset ha
    rcases hsigned a hin with hin | hin
    · exact hold.unsigned a hmem hin
    · have hown := hop a hin (hold.known a hmem).2
      have hapart : (own ++ inPlay t held).Nodup := by
        have := h.distinct
        rwa [inPlay, append_assoc] at this
      exact (nodup_append.mp hapart).2.2 a hown a hmem rfl
  · rw [haddresses]
    rcases hsigned a hin with hin | hin
    · exact h.named a hown hin
    · exact (h.known a (mem_append_left _ (mem_append_left _ (hop a hin hown)))).1

end Sound

abbrev addressesOf (entries : List PublicAddress) : List Address :=
  entries.map PublicAddress.address

theorem addressesOf_append_singleton {entries : List PublicAddress} {e : PublicAddress} :
    (addressesOf (entries ++ [e]) ++ held).Perm (e.address :: (addressesOf entries ++ held)) := by
  rw [addressesOf, map_append, append_assoc]
  exact perm_middle

section Pools

variable {account : AccountPublic W} {entries taken : List PublicAddress}

theorem takeAddress_sound {index : ℕ} (haccount : account ∈ accounts) (hcoin : account.coin = .qi)
    (hs : Sound accounts t (addressesOf entries ++ held))
    (hentries : ∀ e ∈ entries, ChangeChild accounts e)
    (h : takeAddress account (entries, t) index = .ok (taken, t')) :
    Sound accounts t' (addressesOf taken ++ held) ∧ (∀ e ∈ taken, ChangeChild accounts e) ∧
      t'.custody = t.custody := by
  obtain ⟨e, hderive, hlookup, rfl, rfl⟩ := takeAddress_eq_ok h
  refine ⟨hs.move (List.Perm.subperm ?_) rfl rfl rfl, fun e' he' => ?_, rfl⟩
  · -- the address goes from the released values to the addresses in use
    exact (addressesOf_append_singleton.append_right _).trans
      (perm_middle.symm.trans ((Table.values_erase_perm hlookup).symm.append_left _))
  · rcases mem_append.mp he' with he' | he'
    · exact hentries e' he'
    · rw [mem_singleton.mp he']
      exact ⟨account, haccount, hcoin, index, hderive⟩

theorem takeReleasedChange_sound {max : ℕ} (haccount : account ∈ accounts)
    (hs : Sound accounts t held) (h : t.takeReleasedChange account max = .ok (taken, t')) :
    Sound accounts t' (addressesOf taken ++ held) ∧ (∀ e ∈ taken, ChangeChild accounts e) ∧
      t'.custody = t.custody := by
  simp only [takeReleasedChange, ite_error_eq_ok, not_or, not_not] at h
  obtain ⟨⟨hcoin, -⟩, h⟩ := h
  have hstart : Sound accounts t (addressesOf [] ++ held) := hs
  split at h
  · cases h
    exact ⟨hstart, by simp, rfl⟩
  · simp only [bind_eq_ok] at h
    obtain ⟨cursor, -, h⟩ := h
    split at h
    · cases h
      exact ⟨hstart, by simp, rfl⟩
    · refine foldlM_invariant (P := fun s : List PublicAddress × ScopeTables =>
        Sound accounts s.2 (addressesOf s.1 ++ held) ∧ (∀ e ∈ s.1, ChangeChild accounts e) ∧
          s.2.custody = t.custody) ?_ ⟨hstart, by simp, rfl⟩ h
      rintro ⟨entries, t₁⟩ index ⟨taken, t₂⟩ ⟨hs, hentries, hcustody⟩ hstep
      obtain ⟨hs', hentries', hcustody'⟩ := takeAddress_sound haccount hcoin hs hentries hstep
      exact ⟨hs', hentries', hcustody'.trans hcustody⟩

/-- What an allocation leaves: addresses in use before it stay apart from those it returns, and on
failure what it took is out of use. -/
def Pooled (accounts : Set (AccountPublic W)) (held : List Address) (c : Custody)
    (result : Except QiError (List PublicAddress)) (t : ScopeTables) : Prop :=
  t.custody = c ∧ match result with
    | .error _ => Sound accounts t held
    | .ok entries => Sound accounts t (addressesOf entries ++ held) ∧
        ∀ e ∈ entries, ChangeChild accounts e

variable {scope : NetworkScope} {pool : QiChangePool W} {id : ReservationId} {store : StoreHandle}
  {transaction : QiTransaction W.toCrypto}

theorem allocateLoop_pooled {attempts missing k : ℕ} {cancelled : ℕ → ℕ → Bool} {burned : Option ℕ}
    {out : Except QiError (List PublicAddress × Option ℕ) × ScopeTables}
    (haccount : account ∈ accounts) (hcoin : account.coin = .qi)
    (hs : Sound accounts t (addressesOf entries ++ held))
    (hentries : ∀ e ∈ entries, ChangeChild accounts e)
    (h : allocateLoop scope account attempts cancelled missing k (entries, burned) t = out) :
    Pooled accounts held t.custody (out.1.map Prod.fst) out.2 := by
  induction missing generalizing k entries burned t with
  | zero =>
    subst h
    exact ⟨rfl, hs, hentries⟩
  | succ missing ih =>
    have hlost : Sound accounts t held := hs.forget (sublist_append_right _ _).subperm
    simp only [allocateLoop] at h
    split at h
    · subst h
      exact ⟨rfl, hlost⟩
    split at h
    · subst h
      exact ⟨rfl, hlost⟩
    · rename_i allocated t₁ hcompact
      obtain ⟨⟨index, hderive⟩, hadds, hmem, hnew, hcovered⟩ :=
        allocateCompact_adds hs.covered hcompact
      have hchild : ChangeChild accounts allocated.address :=
        ⟨account, haccount, hcoin, index, hderive⟩
      have hfresh := hs.fresh (hadds.imp fun e he _ => he ▸ hchild) hcovered ⟨_, hchild, rfl⟩ hmem hnew
      have hchildren : ∀ e ∈ entries ++ [allocated.address], ChangeChild accounts e := by
        intro e he
        rcases mem_append.mp he with he | he
        · exact hentries e he
        · rw [mem_singleton.mp he]
          exact hchild
      have hrest := ih (hfresh.perm addressesOf_append_singleton) hchildren h
      rw [hadds.custody] at hrest
      exact hrest

theorem allocate_pooled {count attempts : ℕ} {cancelled : ℕ → ℕ → Bool}
    {out : Except QiError (QiChangePool W) × ScopeTables} (haccount : account ∈ accounts)
    (hs : Sound accounts t held) (h : allocate store account count attempts cancelled t = out) :
    Pooled accounts held t.custody (out.1.map addresses) out.2 := by
  unfold allocate at h
  split at h
  · subst h
    exact ⟨rfl, hs⟩
  · rename_i hpolicy
    have hcoin : account.coin = .qi := not_not.mp (not_or.mp hpolicy).1
    split at h
    · subst h
      exact ⟨rfl, hs⟩
    · rename_i taken t₁ htaken
      obtain ⟨hs₁, hchildren, hcustody⟩ := takeReleasedChange_sound haccount hs htaken
      generalize hout : allocateLoop store.scope account attempts cancelled
        (count - taken.length) 0 (taken, none) t₁ = loop at h
      have hloop := allocateLoop_pooled haccount hcoin hs₁ hchildren hout
      rw [hcustody] at hloop
      subst h
      obtain ⟨result, t₂⟩ := loop
      cases result with
      | error | ok => exact hloop

theorem release_sound
    (hs : Sound accounts t (addressesOf pool.addresses ++ held)) (h : pool.release store t = .ok t') :
    Sound accounts t' held ∧ t'.custody = t.custody := by
  have hloop : ∀ {entries : List PublicAddress} {cursor : ℕ} {t t' : ScopeTables},
      Sound accounts t (addressesOf entries ++ held) →
      entries.foldlM (releaseAddress pool.account cursor) t = .ok t' →
      Sound accounts t' held ∧ t'.custody = t.custody := by
    intro entries cursor
    induction entries with
    | nil =>
      intro t t' hs h
      cases h
      exact ⟨hs, rfl⟩
    | cons e rest ih =>
      intro t t' hs h
      rw [foldlM_cons, bind_eq_ok] at h
      obtain ⟨t₁, hfirst, hrest⟩ := h
      obtain rfl | ⟨key, hnew, rfl⟩ := releaseAddress_eq_ok hfirst
      · exact ih (hs.forget (sublist_cons_self _ _).subperm) hrest
      · apply ih _ hrest
        refine hs.move (List.Perm.subperm ?_) rfl rfl rfl
        rw [inPlay, Table.values_insert hnew]
        exact perm_middle
  simp only [release, ite_error_eq_ok] at h
  obtain ⟨-, h⟩ := h
  split at h
  · cases h
    exact ⟨hs.forget (sublist_append_right _ _).subperm, rfl⟩
  · simp only [releaseChange, eq_ok] at h
    obtain ⟨-, found, -, cursor, -, h⟩ := h
    exact hloop hs h

theorem takeMetadata_spec (outputs : List QiOutput) {m : Table Address PublicAddress}
    (hkeys : ∀ a e, m.lookup a = some e → e.address = a) :
    (addressesOf (takeMetadata outputs m)).Nodup ∧ ∀ e ∈ takeMetadata outputs m,
        m.lookup e.address = some e ∧ e.address ∈ outputs.map QiOutput.address := by
  induction outputs generalizing m with
  | nil => exact ⟨nodup_nil, by simp [takeMetadata]⟩
  | cons output rest ih =>
    rw [takeMetadata]
    split
    · rename_i entry hentry
      have hentryKey := hkeys _ _ hentry
      have herased : ∀ a e, (m.erase output.address).lookup a = some e →
          a ≠ output.address ∧ m.lookup a = some e := by
        intro a e he
        have hne : a ≠ output.address := by
          rintro rfl
          rw [AList.lookup_erase] at he
          cases he
        rw [AList.lookup_erase_ne hne] at he
        exact ⟨hne, he⟩
      obtain ⟨hnodup, hspec⟩ := ih fun a e he => hkeys a e (herased a e he).2
      refine ⟨nodup_cons.mpr ⟨fun hmem => ?_, hnodup⟩, fun e he => ?_⟩
      · obtain ⟨e, he, heq⟩ := mem_map.mp hmem
        exact (herased _ _ (hspec e he).1).1 (heq.trans hentryKey)
      · rcases mem_cons.mp he with rfl | he
        · rw [hentryKey]
          exact ⟨hentry, mem_cons_self⟩
        · obtain ⟨hlookup, hmem⟩ := hspec e he
          exact ⟨(herased _ _ hlookup).2, mem_cons_of_mem _ hmem⟩
    · obtain ⟨hnodup, hspec⟩ := ih hkeys
      exact ⟨hnodup, fun e he => ⟨(hspec e he).1, mem_cons_of_mem _ (hspec e he).2⟩⟩

theorem releaseUnsigned_eq_ok (h : t.releaseUnsigned id = .ok t') :
    (∃ row, t.custody.reservations.lookup id = some row ∧ row.status = .reserved) ∧
      t' = (t.withCustody fun c => { c with qiClaims := c.qiClaims.delete fun _ (claim : QiClaim) =>
        claim.operation = id }).setStatus id .released := by
  simp only [releaseUnsigned, requireReservation, eq_ok, not_not, Option.map_eq_some_iff] at h
  obtain ⟨old, ⟨row, hrow, rfl⟩, hreserved, rfl⟩ := h
  exact ⟨⟨row, hrow, hreserved⟩, rfl⟩

theorem reclaimOutputs_releaseUnsigned {pool' : QiChangePool W}
    {storeInstance : StoreInstance}
    (h : pool.reclaimOutputs store storeInstance scope id transaction t = .ok (pool', t')) :
    t.releaseUnsigned id = .ok t' := by
  simp only [reclaimOutputs, eq_ok, Prod.mk.injEq] at h
  obtain ⟨-, metadata, -, t₁, hrelease, -, rfl⟩ := h
  exact hrelease

/-- A rejected transaction gives its own change outputs back and nothing else. -/
theorem reclaimOutputs_sound {pool' : QiChangePool W}
    {storeInstance : StoreInstance} {own : List Address}
    (hs : Sound accounts t (own ++ (addressesOf pool.addresses ++ held)))
    (hentries : ∀ e ∈ pool.addresses, ChangeChild accounts e)
    (hown : ∀ a ∈ transaction.outputs.map QiOutput.address, Own accounts a → a ∈ own)
    (h : pool.reclaimOutputs store storeInstance scope id transaction t = .ok (pool', t')) :
    Sound accounts t' (addressesOf pool'.addresses ++ held) ∧
      ∀ e ∈ pool'.addresses, ChangeChild accounts e := by
  simp only [reclaimOutputs, eq_ok, Prod.mk.injEq] at h
  obtain ⟨-, metadata, hmetadata, t₁, hrelease, rfl, rfl⟩ := h
  have hstored : ∀ a e, metadata.lookup a = some e → e.address = a := by
    intro a e he
    obtain ⟨row, -, hrow⟩ := publicAddresses_lookup hmetadata he
    rw [(addressRow_eq_ok hrow).1]
  obtain ⟨hnodup, hspec⟩ := takeMetadata_spec transaction.outputs hstored
  -- what comes back has a change row, so it is a change child and was in use by the transaction
  have hback : ∀ e ∈ (takeMetadata transaction.outputs metadata).filter pool.owns,
      ChangeChild accounts e ∧ e.address ∈ own := by
    intro e he
    obtain ⟨he, howns⟩ := mem_filter.mp he
    obtain ⟨hlookup, hmem⟩ := hspec e he
    obtain ⟨row, hrow, hdecoded⟩ := publicAddresses_lookup hmetadata hlookup
    have heq := (addressRow_eq_ok hdecoded).1
    have hchange := isChange_of_owns howns
    rw [heq] at hchange
    have hchild := hs.recorded _ row hrow hchange
    rw [← heq] at hchild
    exact ⟨hchild, hown _ hmem ⟨e, hchild, rfl⟩⟩
  generalize hchange : (takeMetadata transaction.outputs metadata).filter pool.owns =
    change at hback ⊢
  have hsub : (addressesOf change).Subperm own := by
    apply subperm_of_subset
    · rw [← hchange]
      exact (filter_sublist.map _).nodup hnodup
    · intro a ha
      obtain ⟨e, he, rfl⟩ := mem_map.mp ha
      exact (hback e he).2
  have hsorted : ((pool.addresses ++ change).insertionSort fun a b =>
      indexKey a ≤ indexKey b).Perm (pool.addresses ++ change) :=
    perm_insertionSort _ _
  refine ⟨?_, fun e he => ?_⟩
  · obtain ⟨-, rfl⟩ := releaseUnsigned_eq_ok hrelease
    have hfirst := hs.forget ((subperm_append_right _).mpr hsub)
    refine hfirst.move (List.Perm.subperm (List.Perm.append_right _ ?_)) rfl rfl rfl
    have hperm := (hsorted.map PublicAddress.address).append_right held
    rw [map_append] at hperm
    refine hperm.trans ?_
    rw [← append_assoc]
    exact perm_append_comm.append_right held
  · rcases mem_append.mp (hsorted.subset he) with he | he
    · exact hentries e he
    · exact (hback e he).1

end Pools

end QuaiSdk.Sdk
