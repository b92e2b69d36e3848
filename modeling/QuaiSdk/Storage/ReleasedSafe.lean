import QuaiSdk.Storage.Freshness
import QuaiSdk.Storage.Store

/-!
# Released change

An address on the list of released change was never signed, and is handed out once per release.  Its
index also lies below the cursor of its branch as long as the store records it as that child: the
allocator that gives a tail back cannot pass a recorded child.  A child recorded as a bare public key
does not hold the cursor up, and `release_change` accepts it.
-/

namespace QuaiSdk.Storage

open Result Wallet

variable {W : HdCrypto} {B : Backend}

theorem BoundChild.of_xpub {cursor cursor' : DerivationCursor} {account index : ℕ} {a : Address}
    (h : BoundChild W cursor account index a) (hxpub : cursor'.xpub = cursor.xpub) :
    BoundChild W cursor' account index a := by
  obtain ⟨key, entry, hcoin, haccount, hexport, hderive⟩ := h
  exact ⟨key, entry, hcoin, haccount, hexport.trans hxpub.symm, hderive⟩

namespace ScopeTables

variable {t t' : ScopeTables} {scope : NetworkScope} {offered : List PublicAddress}

variable {a : Address} {key : ℕ × ℕ}

theorem inSignedBytes_iff : t.inSignedBytes a ↔
    (∃ id p, t.custody.signedPayloads.lookup id = some p ∧ a.bytes <:+: p.payload) ∨
      ∃ key e, t.custody.quaiReplacements.lookup key = some e ∧ a.bytes <:+: e.payload := by
  simp only [inSignedBytes, Prod.exists, Table.mem_rows]

/-- What holds of a listed address whatever the cursors did since its release. -/
structure Listed (W : HdCrypto) (t : ScopeTables) (key : ℕ × ℕ) (a : Address) : Prop where
  stored : a ∈ t.addresses
  unsigned : ¬t.inSignedBytes a
  child : ∃ cursor, t.derivationCursors.lookup ⟨.qi, key.1, true⟩ = some cursor ∧
    BoundChild W cursor key.1 key.2 a

def AllListed (W : HdCrypto) (t : ScopeTables) : Prop :=
  ∀ key a, t.releasedChange.lookup key = some a → t.Listed W key a

theorem Listed.mono {a : Address} (h : t.Listed W key a)
    (hrows : ∀ a ∈ t.addresses, a ∈ t'.addresses)
    (hbound : KeepsBound t.derivationCursors t'.derivationCursors)
    (hunsigned : ¬t'.inSignedBytes a) : t'.Listed W key a := by
  obtain ⟨cursor, hcursor, hchild⟩ := h.child
  obtain ⟨cursor', hcursor', hxpub⟩ := hbound _ _ hcursor
  exact ⟨hrows a h.stored, hunsigned, cursor', hcursor', hchild.of_xpub hxpub⟩

theorem AllListed.of_eq (h : t.AllListed W) (hlist : t'.releasedChange = t.releasedChange)
    (hpayloads : t'.custody.signedPayloads = t.custody.signedPayloads)
    (hreplacements : t'.custody.quaiReplacements = t.custody.quaiReplacements)
    (hrows : ∀ a ∈ t.addresses, a ∈ t'.addresses)
    (hbound : KeepsBound t.derivationCursors t'.derivationCursors) : t'.AllListed W := by
  intro key a ha
  rw [hlist] at ha
  have hunsigned := (h key a ha).unsigned
  rw [inSignedBytes, ← hpayloads, ← hreplacements] at hunsigned
  exact (h key a ha).mono hrows hbound hunsigned

/-- New signed bytes remove from the list whatever occurs in them. -/
theorem AllListed.burnSigned {c : Custody} {payload : Bytes} (h : t.AllListed W)
    (hbytes : ∀ a : Address, inSignedBytes a { t.burnSigned payload with custody := c } →
      t.inSignedBytes a ∨ a.bytes <:+: payload) :
    AllListed W { t.burnSigned payload with custody := c } := by
  intro key a ha
  obtain ⟨hlisted, hfree⟩ := Table.lookup_delete.mp ha
  have hmono := @Listed.mono W t { t.burnSigned payload with custody := c } key a (h key a hlisted)
    (fun _ h => h) (.refl _)
  apply hmono
  intro hsigned
  cases hbytes a hsigned with
  | inl hold => exact (h key a hlisted).unsigned hold
  | inr hnew => exact hfree hnew

theorem Commit.allListed (h : Commit W scope offered t t') (ht : t.AllListed W) :
    t'.AllListed W := by
  cases h with
  | operations c payloads replacements | invalidated c payloads replacements =>
    exact ht.of_eq rfl payloads replacements (fun _ h => h) (.refl _)
  | signed c id p payloads replacements =>
    apply ht.burnSigned
    intro a ha
    rw [inSignedBytes_iff] at ha ⊢
    simp only [payloads, replacements, Table.lookup_insert_eq] at ha
    obtain ⟨id', p', hp', hin⟩ | hedge := ha
    · split at hp'
      · cases hp'
        exact .inr hin
      · exact .inl (.inl ⟨id', p', hp', hin⟩)
    · exact .inl (.inr hedge)
  | replaced c key edge payloads replacements =>
    apply ht.burnSigned
    intro a ha
    rw [inSignedBytes_iff] at ha ⊢
    simp only [payloads, replacements, Table.lookup_insert_eq] at ha
    obtain hroot | ⟨key', e, he, hin⟩ := ha
    · exact .inl (.inl hroot)
    · split at he
      · cases he
        exact .inr hin
      · exact .inl (.inr ⟨key', e, he, hin⟩)
  | observed | advanced | head => exact ht.of_eq rfl rfl rfl (fun _ h => h) (.refl _)
  | released listed rows =>
    intro key a ha
    obtain hold | ⟨-, hnew⟩ := rows key a ha
    · exact (ht key a hold).mono (fun _ h => h) (.refl _) (ht key a hold).unsigned
    · obtain ⟨cursor, hcursor, -, hchild⟩ := hnew.child
      exact ⟨hnew.stored, hnew.unsigned, cursor, hcursor, hchild⟩
  | rewritten addresses cursors coins checkpoint rows bound => exact ht.of_eq rfl rfl rfl rows bound
  | recorded t₁ keyed =>
    obtain ⟨addresses, cursors, rfl, rows, bound⟩ := keyed
    exact ht.of_eq rfl rfl rfl rows bound
  | keyed t₁ only =>
    obtain ⟨addresses, cursors, rfl, rows, bound⟩ := only
    exact ht.of_eq rfl rfl rfl rows bound
  | restored t₁ released =>
    intro key a ha
    have hempty : t₁.releasedChange.lookup key = some a := ha
    rw [released] at hempty
    cases hempty

theorem Commit.listed_or_offered (h : Commit W scope offered t t')
    (ha : t'.releasedChange.lookup key = some a) :
    t.releasedChange.lookup key = some a ∨ Offers offered key a := by
  cases h with
  | released listed rows => exact (rows key a ha).imp_right And.left
  | signed => exact .inl (Table.lookup_delete.mp ha).1
  | replaced => exact .inl (Table.lookup_delete.mp ha).1
  | recorded t₁ keyed => exact .inl (keyed.lists.1 ▸ ha)
  | keyed t₁ only => exact .inl (only.lists.1 ▸ ha)
  | restored t₁ released =>
    have hempty : t₁.releasedChange.lookup key = some a := ha
    rw [released] at hempty
    cases hempty
  | _ => exact .inl ha

theorem Commits.listed_or_offered (h : Commits W scope offered t t') :
    ∀ key a, t'.releasedChange.lookup key = some a →
      t.releasedChange.lookup key = some a ∨ Offers offered key a := by
  refine h.invariant (P := fun s : ScopeTables => ∀ key a, s.releasedChange.lookup key = some a →
    t.releasedChange.lookup key = some a ∨ Offers offered key a) ?_ fun _ _ ha => .inl ha
  intro s s' hstep hs key a ha
  cases hstep.listed_or_offered ha with
  | inl hold => exact hs key a hold
  | inr hnew => exact .inr hnew

/-- A taken address was listed under the index of its origin and no longer is. -/
structure Taken (account : ℕ) (t t' : ScopeTables) (e : PublicAddress) : Prop where
  child : ∃ index, e.origin = .bip44 .qi account true index ∧
    t.releasedChange.lookup (account, index) = some e.address ∧
    t'.releasedChange.lookup (account, index) = none

theorem takeReleasedChange_taken {account : AccountPublic W} {max : ℕ} {taken : List PublicAddress}
    (h : t.takeReleasedChange account max = .ok (taken, t')) :
    ∀ e ∈ taken, t.Taken account.account t' e := by
  simp only [takeReleasedChange, ite_error_eq_ok, not_or, not_not] at h
  obtain ⟨⟨hcoin, -⟩, h⟩ := h
  split at h
  · cases h
    exact fun _ he => absurd he List.not_mem_nil
  simp only [bind_eq_ok] at h
  obtain ⟨cursor, -, h⟩ := h
  split at h
  · cases h
    exact fun _ he => absurd he List.not_mem_nil
  -- rows only leave the list, and each one taken is gone
  have hrun : (∀ key a, t'.releasedChange.lookup key = some a →
      t.releasedChange.lookup key = some a) ∧ ∀ e ∈ taken, t.Taken account.account t' e := by
    refine foldlM_invariant (P := fun s : List PublicAddress × ScopeTables =>
      (∀ key a, s.2.releasedChange.lookup key = some a → t.releasedChange.lookup key = some a) ∧
      ∀ e ∈ s.1, t.Taken account.account s.2 e) ?_
      ⟨fun _ _ h => h, fun _ he => absurd he List.not_mem_nil⟩ h
    rintro ⟨early, s⟩ index ⟨later, s'⟩ ⟨hkept, htaken⟩ hstep
    obtain ⟨e, hderive, hlookup, rfl, rfl⟩ := takeAddress_eq_ok hstep
    refine ⟨fun key a ha => ?_, fun e' he' => ?_⟩
    · rw [Table.lookup_erase_eq] at ha
      split at ha
      · cases ha
      · exact hkept key a ha
    · cases List.mem_append.mp he' with
      | inl hearly =>
        obtain ⟨index', horigin, hbefore, hafter⟩ := htaken e' hearly
        refine ⟨index', horigin, hbefore, ?_⟩
        rw [Table.lookup_erase_eq, hafter, ite_self]
      | inr hlast =>
        rw [List.mem_singleton.mp hlast]
        refine ⟨index, ?_, hkept _ _ hlookup, ?_⟩
        · rw [PublicAddress.derive_origin hderive, ← hcoin]
          rfl
        · rw [Table.lookup_erase_eq, if_pos rfl]
  exact hrun.2

end ScopeTables

namespace Store

variable {scope : NetworkScope}

theorem allListed_after (actions : List (StoreAction B)) (scope : NetworkScope) :
    ((after actions).tables scope).AllListed B.toHdCrypto := by
  refine Run.run_invariant (G := fun _ _ => True)
    (I := fun s : Store B => (s.tables scope).AllListed B.toHdCrypto) ?_ ?_ actions
    fun _ _ _ _ => trivial
  · intro s action hs _
    exact (s.next_commits action scope).invariant (fun _ _ hstep ht => hstep.allListed ht) hs
  · intro key a ha
    cases ha

def Releases (s : Store B) (scope : NetworkScope) (e : PublicAddress) : StoreAction B → Prop
  | .wallet (.call scope' (.releaseChange account addresses)) =>
    scope' = scope ∧ (∃ t, (s.tables scope).releaseChange account addresses = .ok t) ∧
      ∃ e' ∈ addresses, e'.origin = e.origin ∧ e'.address = e.address
  | _ => False

/-- What a release offers is recorded with the origin that the release names. -/
def ReleasesRecorded (s : Store B) (scope : NetworkScope) (action : StoreAction B) : Prop :=
  ∀ e, s.Releases scope e action →
    ∃ row, (s.tables scope).addresses.lookup e.address = some row ∧ row.origin = e.origin

variable {s : Store B} {a : Address}

theorem next_release_error {account : AccountPublic B.toHdCrypto} {addresses : List PublicAddress}
    {e : StorageError} (h : (s.tables scope).releaseChange account addresses = .error e) :
    s.next (.wallet (.call scope (.releaseChange account addresses))) = s := by
  have hwallet : s.wallet.next (.call scope (.releaseChange account addresses)) = s.wallet := by
    show s.wallet.commit scope ((s.tables scope).releaseChange account addresses) = s.wallet
    rw [h]
    rfl
  show { s with wallet := s.wallet.next (.call scope (.releaseChange account addresses)) } = s
  rw [hwallet]

theorem releases_of_listed {action : StoreAction B} {key : ℕ × ℕ} {publicKey : Bytes}
    (hbefore : (s.tables scope).releasedChange.lookup key ≠ some a)
    (hafter : ((s.next action).tables scope).releasedChange.lookup key = some a) :
    s.Releases scope ⟨a, publicKey, .bip44 .qi key.1 true key.2⟩ action := by
  have hoffers := ((s.next_commits action scope).listed_or_offered key a hafter).resolve_left hbefore
  obtain ⟨e, he, horigin, haddress⟩ := hoffers
  cases action with
  | wallet action =>
    cases action with
    | call scope' call =>
      simp only [offers, System.offers] at he
      by_cases hscope : scope' = scope
      · rw [if_pos hscope] at he
        subst hscope
        cases call with
        | releaseChange account addresses =>
          refine ⟨rfl, ?_, e, he, horigin, haddress⟩
          cases hresult : (s.tables scope').releaseChange account addresses with
          | ok t => exact ⟨t, rfl⟩
          | error =>
            rw [next_release_error hresult] at hafter
            exact absurd hafter hbefore
        | _ => exact absurd he List.not_mem_nil
      · rw [if_neg hscope] at he
        exact absurd he List.not_mem_nil
    | _ => exact absurd he List.not_mem_nil
  | _ => exact absurd he List.not_mem_nil

theorem next_rows (s : Store B) (action : StoreAction B) (scope : NetworkScope) {row : AddressRow}
    (h : (s.tables scope).addresses.lookup a = some row) :
    ((s.next action).tables scope).addresses.lookup a = some row := by
  by_cases hwallet : ∃ a, action = .wallet a
  · obtain ⟨a, rfl⟩ := hwallet
    exact (System.next_effect s.wallet a).lookup_rows scope h
  · rw [not_exists] at hwallet
    exact ((s.next_pays hwallet).1 scope).2.rows a row h

/-- Every listed address is recorded as the child it was released as. -/
def ListedRecorded (s : Store B) (scope : NetworkScope) : Prop :=
  ∀ key a, (s.tables scope).releasedChange.lookup key = some a →
    ∃ row, (s.tables scope).addresses.lookup a = some row ∧
      row.origin = .bip44 .qi key.1 true key.2

theorem listedRecorded_after (actions : List (StoreAction B))
    (hrecorded : ∀ before action later, actions = before ++ action :: later →
      (after before).ReleasesRecorded scope action) : (after actions).ListedRecorded scope := by
  refine Run.run_invariant (G := fun s a => s.ReleasesRecorded scope a)
    (I := fun s : Store B => s.ListedRecorded scope) ?_ (fun key a ha => by cases ha) actions hrecorded
  intro s action hs hrecorded key a ha
  by_cases hold : (s.tables scope).releasedChange.lookup key = some a
  · obtain ⟨row, hrow, horigin⟩ := hs key a hold
    exact ⟨row, s.next_rows action scope hrow, horigin⟩
  · obtain ⟨row, hrow, horigin⟩ := hrecorded ⟨a, [], _⟩ (releases_of_listed hold ha)
    exact ⟨row, s.next_rows action scope hrow, horigin⟩

/-- A row that is listed at the end of a run and was not at its start was released on the way. -/
theorem released_between {actions : List (StoreAction B)} {key : ℕ × ℕ}
    (hbefore : (s.tables scope).releasedChange.lookup key ≠ some a)
    (hafter : ((Run.run next s actions).tables scope).releasedChange.lookup key = some a)
    (publicKey : Bytes) :
    ∃ early action late, actions = early ++ action :: late ∧
      (Run.run next s early).Releases scope ⟨a, publicKey, .bip44 .qi key.1 true key.2⟩ action := by
  induction actions generalizing s with
  | nil => exact absurd hafter hbefore
  | cons action actions ih =>
    by_cases hnow : ((s.next action).tables scope).releasedChange.lookup key = some a
    · exact ⟨[], action, actions, rfl, releases_of_listed hbefore hnow⟩
    · obtain ⟨early, action', late, rfl, hreleases⟩ := ih hnow hafter
      exact ⟨action :: early, action', late, rfl, hreleases⟩

/-- In every reachable state no listed address occurs in signed bytes; if every release names the
recorded origins of its addresses, each listed address is recorded as a change child below the cursor
of its branch; and between two takes of one address lies a release of it. -/
theorem released_change_unsigned (actions : List (StoreAction B)) (scope : NetworkScope) :
    (∀ key a, ((after actions).tables scope).releasedChange.lookup key = some a →
      a ∈ ((after actions).tables scope).addresses ∧
        ¬((after actions).tables scope).inSignedBytes a) ∧
    ((∀ before action later, actions = before ++ action :: later →
        (after before).ReleasesRecorded scope action) →
      ∀ key a, ((after actions).tables scope).releasedChange.lookup key = some a →
        ∃ row cursor, ((after actions).tables scope).addresses.lookup a = some row ∧
          row.origin = .bip44 .qi key.1 true key.2 ∧
          ((after actions).tables scope).derivationCursors.lookup ⟨.qi, key.1, true⟩ = some cursor ∧
          key.2 < cursor.nextIndex) ∧
    ∀ before between account max taken t (account' : AccountPublic B.toHdCrypto) max' taken' t' e,
      actions = before ++ .wallet (.call scope (.takeReleasedChange account max)) :: between →
      ((after before).tables scope).takeReleasedChange account max = .ok (taken, t) → e ∈ taken →
      ((after actions).tables scope).takeReleasedChange account' max' = .ok (taken', t') →
      e ∈ taken' →
      ∃ early action late, between = early ++ action :: late ∧
        (after (before ++ .wallet (.call scope (.takeReleasedChange account max)) :: early)).Releases
          scope e action := by
  refine ⟨fun key a ha => ?_, fun hrecorded key a ha => ?_, ?_⟩
  · have hlisted := allListed_after actions scope key a ha
    exact ⟨hlisted.stored, hlisted.unsigned⟩
  · obtain ⟨row, hrow, horigin⟩ := listedRecorded_after actions hrecorded key a ha
    obtain ⟨cursor, hcursor, -⟩ := (allListed_after actions scope key a ha).child
    refine ⟨row, cursor, hrow, horigin, hcursor, ?_⟩
    -- a recorded child lies below the cursor of its branch
    apply (burning_after actions).covered scope ⟨.qi, key.1, true⟩ cursor.nextIndex key.2
    · show ((after actions).tables scope).cursor _ = _
      rw [ScopeTables.cursor, hcursor, Option.map_some]
    · exact ⟨a, row, hrow, horigin⟩
  · intro before between account max taken t account' max' taken' t' e hactions htake he htake' he'
    obtain ⟨index, horigin, -, hgone⟩ := ScopeTables.takeReleasedChange_taken htake e he
    obtain ⟨index', horigin', hlisted, -⟩ := ScopeTables.takeReleasedChange_taken htake' e he'
    have hkey : (account.account, index) = (account'.account, index') := by
      rw [horigin, KeyOrigin.bip44.injEq] at horigin'
      rw [horigin'.2.1, horigin'.2.2.2]
    have hnext : (after (before ++ [.wallet (.call scope (.takeReleasedChange account max))])).tables
        scope = t := by
      rw [after_concat]
      show ((after before).wallet.commit scope
        ((((after before).tables scope).takeReleasedChange account max).map Prod.snd)).db.tables
          scope = t
      rw [htake]
      show ((after before).wallet.write scope t).db.tables scope = t
      rw [System.tables_write, if_pos rfl]
    rw [hactions, List.append_cons, after_append, ← hkey] at hlisted
    have habsent : ((after (before ++
        [.wallet (.call scope (.takeReleasedChange account max))])).tables scope).releasedChange.lookup
          (account.account, index) ≠ some e.address := by
      rw [hnext, hgone]
      exact (Option.some_ne_none _).symm
    obtain ⟨early, action, late, hsplit, hreleases⟩ :=
      released_between habsent hlisted e.publicKey
    refine ⟨early, action, late, hsplit, ?_⟩
    rw [List.append_cons, after_append]
    rw [← horigin] at hreleases
    exact hreleases

def tailKey : Bytes :=
  BigEndian.toBytes 33 0x037994ac0b98334cf0eb4d55c7fe8afeeab73c6210315a4bb76927ee5079b8947b

def tailAddress : Address := Address.ofNat 0x009a795a693eb89d7279a5837e7edc0651579e07

/-- The wallet of `System.changeBackend` with its next change child in the zone, number 369. -/
def tailBackend : Backend :=
  .ofHd (KnownKeys.hd ⟨[(System.changeXpub, 0)], [((System.changeXpub, true, 0), System.changeKey),
      ((System.changeXpub, true, 369), tailKey)]⟩
    ⟨[(System.changeKey, System.changeAddress), (tailKey, tailAddress)], [], [], []⟩)

def tailChild : PublicAddress := ⟨tailAddress, tailKey, .bip44 .qi 0 true 369⟩

def tailCall (call : Call tailBackend) : StoreAction tailBackend :=
  .wallet (.call sampleScope call)

/-- Child 369 is recorded as a bare public key and released while an allocation holds the indexes up
to it; the allocation then finds child 0 and gives the rest back. -/
def tailActions : List (StoreAction tailBackend) :=
  [tailCall (.importMetadata 0 [⟨tailAddress, tailKey, .importedPublic⟩]),
    .wallet (.reserveRange sampleScope System.changeAccount true 370 fun _ => false),
    tailCall (.releaseChange System.changeAccount [tailChild]), .wallet (.completeAllocation 0)]

/-- The listed index is above the cursor, and the address is not recorded as a change child. -/
theorem released_tail_above_cursor :
    ((after tailActions).tables sampleScope).releasedChange.lookup (0, 369) =
        some tailAddress ∧
      ((after tailActions).tables sampleScope).cursor ⟨.qi, 0, true⟩ = some 1 ∧
      (((after tailActions).tables sampleScope).addresses.lookup tailAddress).map
        (·.origin) = some .importedPublic := by
  decide +kernel

def recycleActions : List (StoreAction tailBackend) :=
  [.wallet (.allocateCompact sampleScope System.changeAccount true 1 fun _ => false),
    tailCall (.releaseChange System.changeAccount [System.changeChild])]

theorem released_change_unsigned_recycled :
    ∃ row cursor, ((after recycleActions).tables sampleScope).addresses.lookup
        System.changeAddress = some row ∧
      row.origin = .bip44 .qi 0 true 0 ∧
      ((after recycleActions).tables sampleScope).derivationCursors.lookup ⟨.qi, 0, true⟩ =
        some cursor ∧ 0 < cursor.nextIndex := by
  apply (released_change_unsigned recycleActions sampleScope).2.1 _ (0, 0)
    System.changeAddress (by decide +kernel)
  intro before action later hsplit e hreleases
  -- the only release is the last action
  match before, hsplit with
  | [], hsplit =>
    cases hsplit
    cases hreleases
  | [first], hsplit =>
    cases hsplit
    obtain ⟨-, -, e', he', horigin, haddress⟩ := hreleases
    rw [List.mem_singleton.mp he'] at horigin haddress
    rw [← haddress, ← horigin]
    exact ⟨⟨System.changeKey, .bip44 .qi 0 true 0⟩, by decide +kernel, rfl⟩
  | _ :: _ :: rest, hsplit =>
    have hlength := congrArg List.length hsplit
    simp [recycleActions] at hlength

end Store

end QuaiSdk.Storage
