import QuaiSdk.Books.QiValid

/-!
# Steps of a Qi operation book

Everything that one successful call can do to a book: add a reservation of outpoints nobody holds,
replace one operation by one that keeps its claims, or merge a backup.
-/

namespace QuaiSdk.Books

open Result Wallet Storage Registry PublicAddress List
open ReservationState (isSigned)

variable {C : Crypto} {B : Backend}

namespace QiOperationBook

def Local (scope : NetworkScope) (a : PublicAddress) : Prop :=
  ∃ qi, LedgerAddress.tryFrom .qi a.address = .ok qi ∧ qi.zone = scope.zone

theorem addAddress_eq_ok {scope : NetworkScope} {a : PublicAddress} {s t : Registry address} :
    addAddress scope a s = .ok t ↔ Local scope a ∧ ((s.get? a.address = some a ∧ t = s) ∨
        (s.get? a.address = none ∧ s.records.length < maxQiCustodyAddresses ∧ t = s.insert a)) := by
  simp only [addAddress, eq_ok, not_not, Local, ← exists_and_right, and_assoc]
  apply exists_congr
  intro qi
  apply and_congr_right
  intro _
  apply and_congr_right
  intro _
  cases hget : s.get? a.address with
  | none =>
    simp only [eq_ok, not_le, reduceCtorEq, false_and, false_or, true_and]
    exact and_congr_right fun _ => eq_comm
  | some =>
    simp only [eq_ok, ne_eq, not_not, Option.some.injEq, reduceCtorEq, false_and, or_false]
    exact and_congr_right fun _ => eq_comm

structure Added (scope : NetworkScope) (brought : List PublicAddress)
    (s t : Registry address) : Prop where
  grow : s.records ⊆ t.records
  count : s.records.length ≤ maxQiCustodyAddresses → t.records.length ≤ maxQiCustodyAddresses
  new : ∀ a ∈ t.records, a ∈ s.records ∨ (a ∈ brought ∧ Local scope a)

namespace Added

variable {scope : NetworkScope} {brought : List PublicAddress}
  {s t u : Registry address}

theorem refl : Added scope brought s s := ⟨List.Subset.refl _, fun h => h, fun _ ha => .inl ha⟩

theorem trans (hst : Added scope brought s t) (htu : Added scope brought t u) :
    Added scope brought s u where
  grow := List.Subset.trans hst.grow htu.grow
  count h := htu.count (hst.count h)
  new a ha := (htu.new a ha).elim (hst.new a) .inr

end Added

theorem addAddress_added {scope : NetworkScope} {brought : List PublicAddress} {a : PublicAddress}
    {s t : Registry address} (ha : a ∈ brought) (h : addAddress scope a s = .ok t) :
    Added scope brought s t := by
  obtain ⟨hlocal, ⟨-, rfl⟩ | ⟨hnone, hroom, rfl⟩⟩ := addAddress_eq_ok.mp h
  · exact .refl
  · have hperm := insert_perm_of_none hnone
    constructor
    · exact fun b hb => hperm.mem_iff.mpr (mem_cons_of_mem _ hb)
    · intro _
      rw [length_insert_of_none hnone]
      exact hroom
    · intro b hb
      rcases mem_cons.mp (hperm.mem_iff.mp hb) with rfl | hb
      · exact .inr ⟨ha, hlocal⟩
      · exact .inl hb

end QiOperationBook

/-- What an operation keeps: its identity, and everything that may have left the process. -/
structure QiOperation.Kept (old new : QiOperation) : Prop where
  id : new.id = old.id
  signed : ∀ h, old.transaction = some h →
    new.transaction = some h ∧ isSigned new.state = true ∧ new.claims = old.claims
  payload : ∀ p, old.payload = some p → new.payload = some p
  edges : old.replacements ⊆ new.replacements

/-- Written in place: a journal needs no more room for it. -/
structure QiOperation.Shrinks (old new : QiOperation) : Prop where
  checkpoint : new.reservationCheckpoint = old.reservationCheckpoint
  claims : new.claims = old.claims ∨ new.claims = []
  transaction : new.transaction = old.transaction
  payload : new.payload = old.payload
  replacements : new.replacements = old.replacements
  inclusion : new.inclusion = old.inclusion ∨ new.inclusion = none

namespace QiOperation

theorem Sound.isSigned_of_some {book : QiOperationBook C} {op : QiOperation} (h : op.Sound book)
    {hash : Hash32} (htransaction : op.transaction = some hash) : isSigned op.state = true := by
  rw [h.signed, htransaction]
  rfl

theorem Kept.trans {a b c : QiOperation} (hab : a.Kept b) (hbc : b.Kept c) : a.Kept c where
  id := hbc.id.trans hab.id
  signed h ha := by
    obtain ⟨hb, -, hclaims⟩ := hab.signed h ha
    obtain ⟨hc, hsigned, hclaims'⟩ := hbc.signed h hb
    exact ⟨hc, hsigned, hclaims'.trans hclaims⟩
  payload p ha := hbc.payload p (hab.payload p ha)
  edges := fun _ he => hbc.edges (hab.edges he)

end QiOperation

namespace QiOperationBook

variable {book : QiOperationBook C} {brought : List PublicAddress}

def Exportable (book : QiOperationBook C) : Prop := ∃ b, book.exportState = .ok b

/-- Everything a successful call that brings these addresses can do to a book.  New bytes come with an
export. -/
inductive Change (book : QiOperationBook C) (brought : List PublicAddress) :
    QiOperationBook C → Prop where
  | same : Change book brought book
  | reserve (addresses : Registry address) (op : QiOperation)
      (hadded : Added book.scope brought book.addresses addresses)
      (hnew : book.operations.get? op.id = none)
      (hroom : book.operations.records.length < maxQiOperations)
      (hfree : ∀ c ∈ op.claims, c.outpoint ∉ book.claimedOutpoints)
      (hsound : op.Sound (C := C) { book with addresses })
      (hexport : Exportable (C := C)
        { book with addresses, operations := book.operations.insert op }) :
      Change book brought { book with addresses, operations := book.operations.insert op }
  | replace (old op : QiOperation) (hold : book.operations.get? old.id = some old)
      (hkept : old.Kept op) (hclaims : op.claims = old.claims ∨ op.claims = [])
      (hsound : op.Sound book)
      (hroom : Exportable (C := C) { book with operations := book.operations.insert op } ∨
        old.Shrinks op) :
      Change book brought { book with operations := book.operations.insert op }
  | merge (addresses : Registry address) (operations : Registry QiOperation.id)
      (hadded : Added book.scope brought book.addresses addresses)
      (hkept : book.operations.Follows QiOperation.Kept operations)
      (hvalid : Valid (C := C) { book with addresses, operations })
      (hexport : Exportable (C := C) { book with addresses, operations }) :
      Change book brought { book with addresses, operations }

/-- A book forgets no address, no operation and no claim. -/
structure Retains (old new : QiOperationBook C) : Prop where
  addresses : old.addresses.records ⊆ new.addresses.records
  operations : old.operations.Follows QiOperation.Kept new.operations

theorem Retains.refl (h : book.Valid) : Retains book book where
  addresses := List.Subset.refl _
  operations := .refl fun op hop => ⟨rfl,
    fun _ ht => ⟨ht, (h.sound op hop).isSigned_of_some ht, rfl⟩, fun _ hp => hp, List.Subset.refl _⟩

variable {claims : List QiInputClaim} {scope : NetworkScope} {book' : QiOperationBook C}
  {op : QiOperation}

theorem Change.retains (h : Change book brought book') (hvalid : book.Valid) :
    Retains book book' := by
  have hrefl := (Retains.refl hvalid).operations
  cases h with
  | same => exact .refl hvalid
  | reserve addresses op hadded hnew =>
    exact ⟨hadded.grow, hrefl.insert_new hnew⟩
  | replace old op hold hkept =>
    exact ⟨List.Subset.refl _, hrefl.insert_old .trans (by rw [hkept.id]; exact hold) hkept⟩
  | merge addresses operations hadded hkept => exact ⟨hadded.grow, hkept⟩

theorem Change.valid (h : Change book brought book') (hvalid : book.Valid) : book'.Valid := by
  cases h with
  | same => exact hvalid
  | reserve addresses op hadded hnew hroom hfree hsound =>
    have hperm := insert_perm_of_none hnew
    constructor
    · rw [length_insert_of_none hnew]
      exact hroom
    · exact hadded.count hvalid.addressCount
    · -- the new outpoints are distinct and held by nobody
      have hheld := hperm.flatMap_right fun op => op.claims.map QiInputClaim.outpoint
      change ((book.operations.insert op).records.flatMap _).Nodup
      rw [hheld.nodup_iff, flatMap_cons, nodup_append]
      refine ⟨?_, hvalid.distinct, ?_⟩
      · rw [List.Nodup, pairwise_map]
        exact hsound.sorted.imp fun h => ne_of_lt h
      · rintro o ho o' ho' rfl
        obtain ⟨c, hc, rfl⟩ := mem_map.mp ho
        exact hfree c hc ho'
    · exact forall_mem_insert (sound_mono hsound rfl (List.Subset.refl _))
        fun other hother => sound_mono (hvalid.sound other hother) rfl hadded.grow
  | replace old op hold hkept hclaims hsound =>
    have hsplit := perm_of_get? hold
    have hperm := insert_perm op book.operations
    rw [hkept.id] at hperm
    constructor
    · rw [length_insert_of_some (by rw [hkept.id]; exact hold)]
      exact hvalid.count
    · exact hvalid.addressCount
    · have hheld := hperm.flatMap_right fun op => op.claims.map QiInputClaim.outpoint
      have hbefore := hvalid.distinct
      rw [claimedOutpoints,
        (hsplit.flatMap_right fun op => op.claims.map QiInputClaim.outpoint).nodup_iff,
        flatMap_cons] at hbefore
      change ((book.operations.insert op).records.flatMap _).Nodup
      rw [hheld.nodup_iff, flatMap_cons]
      -- the operation keeps its claims or gives all of them up
      rcases hclaims with hclaims | hclaims
      · rwa [hclaims]
      · rw [hclaims]
        exact (nodup_append.mp hbefore).2.1
    · exact forall_mem_insert (sound_mono hsound rfl (List.Subset.refl _))
        fun other hother => sound_mono (hvalid.sound other hother) rfl (List.Subset.refl _)
  | merge addresses operations hadded hkept hmerged => exact hmerged

/-- Claims that the book can take on. -/
structure Fresh (book : QiOperationBook C) (claims : List QiInputClaim) : Prop where
  owned : ∀ c ∈ claims, book.ValidOutpoint c
  distinct : (claims.map QiInputClaim.outpoint).Nodup
  free : ∀ c ∈ claims, c.outpoint ∉ book.claimedOutpoints

theorem reserveCoin_fresh {candidateHeight : ℕ} {r : List QiInputClaim} {coin : CandidateCoin}
    (hfresh : book.Fresh claims) (h : book.reserveCoin candidateHeight claims coin = .ok r) :
    book.Fresh r ∧ r.length = claims.length + 1 := by
  simp only [reserveCoin, eq_ok, not_or, not_not] at h
  obtain ⟨⟨howned, hnew, -⟩, hfree, rfl⟩ := h
  refine ⟨⟨?_, ?_, ?_⟩, length_append⟩
  · exact forall_mem_append.mpr ⟨hfresh.owned, forall_mem_singleton.mpr howned⟩
  · rw [map_append, map_singleton, nodup_append]
    refine ⟨hfresh.distinct, nodup_singleton _, ?_⟩
    rintro o ho o' ho' rfl
    rw [mem_singleton.mp ho'] at ho
    exact hnew ho
  · exact forall_mem_append.mpr ⟨hfresh.free, forall_mem_singleton.mpr hfree⟩

theorem fresh_nil : book.Fresh [] := ⟨nofun, .nil, nofun⟩

theorem foldlM_reserveCoin {candidateHeight : ℕ} {coins : List CandidateCoin}
    {r : List QiInputClaim} (hfresh : book.Fresh claims)
    (h : coins.foldlM (book.reserveCoin candidateHeight) claims = .ok r) :
    book.Fresh r ∧ r.length = claims.length + coins.length := by
  induction coins generalizing claims with
  | nil =>
    cases h
    exact ⟨hfresh, rfl⟩
  | cons coin coins ih =>
    rw [foldlM_cons, bind_eq_ok] at h
    obtain ⟨middle, hcoin, hrest⟩ := h
    obtain ⟨hmiddle, hlength⟩ := reserveCoin_fresh hfresh hcoin
    obtain ⟨hr, hlength'⟩ := ih hmiddle hrest
    refine ⟨hr, ?_⟩
    rw [length_cons]
    omega

theorem foldlM_reserveOwner {owners : List PublicAddress} {seen : List Address}
    {s t : Registry address}
    (h : owners.foldlM (reserveOwner scope) ([], s) = .ok (seen, t)) : Added scope owners s t := by
  refine foldlM_invariant_mem (P := fun u : List Address × Registry address =>
    Added scope owners s u.2) ?_ .refl h
  intro u owner u' hmem hadded hstep
  simp only [reserveOwner, eq_ok] at hstep
  obtain ⟨-, addresses, hadd, rfl⟩ := hstep
  exact hadded.trans (addAddress_added hmem hadd)

theorem sortClaims_perm (claims : List QiInputClaim) : (sortClaims claims).Perm claims :=
  perm_insertionSort _ _

theorem sortClaims_sorted (h : (claims.map QiInputClaim.outpoint).Nodup) :
    (sortClaims claims).Pairwise fun a b => a.outpoint < b.outpoint := by
  have hle : (sortClaims claims).Pairwise fun a b => a.outpoint ≤ b.outpoint := by
    exact pairwise_insertionSort _ _
  have hne : (sortClaims claims).Pairwise fun a b => a.outpoint ≠ b.outpoint := by
    rw [← pairwise_map]
    exact ((sortClaims_perm claims).map _).nodup_iff.mpr h
  exact (hle.and hne).imp fun h => lt_of_le_of_ne h.1 h.2

theorem sound_reserve {id : ReservationId} {checkpoint : Block} (h : book.Fresh claims)
    (hblock : checkpoint.hash ≠ Hash32.zero) (hsome : claims ≠ []) (hcount : claims.length ≤ 4096) :
    QiOperation.Sound book
      ⟨id, .reserved, some checkpoint, sortClaims claims, none, none, [], none⟩ where
  signed := rfl
  released := by
    apply iff_of_false nofun
    intro hnil
    have hperm := sortClaims_perm claims
    rw [show sortClaims claims = [] from hnil] at hperm
    exact hsome hperm.nil_eq.symm
  confirmed := iff_of_false nofun nofun
  bare _ := ⟨rfl, rfl⟩
  count := by
    rw [(sortClaims_perm claims).length_eq]
    exact hcount
  checkpoint := by
    rintro _ ⟨⟩
    exact hblock
  owned c hc := h.owned c ((sortClaims_perm claims).mem_iff.mp hc)
  sorted := sortClaims_sorted h.distinct
  root := nofun
  edges _ := rfl
  included := nofun

def Holds (op : QiOperation) : Prop := op.transaction.isSome = true → op.claims ≠ []

theorem holds_of_sound (h : op.Sound book) : Holds op := by
  intro htransaction hclaims
  rw [← h.signed, h.released.mpr hclaims] at htransaction
  cases htransaction

theorem mergeOperation_kept {live source : QiOperation} {gained : ℕ} (hlive : Holds live)
    (hsource : Holds source) (h : mergeOperation live source = .ok (op, gained)) :
    live.Kept op ∧ Holds op := by
  simp only [mergeOperation, eq_ok, Prod.mk.injEq] at h
  obtain ⟨-, rfl, -⟩ := h
  refine ⟨⟨rfl, ?_, ?_, subset_mergeEdges _ _⟩, ?_⟩
  · intro hash htransaction
    have hor : live.transaction.or source.transaction = some hash := by
      rw [htransaction]
      rfl
    have hheld : live.claims ≠ [] := hlive (by rw [htransaction]; rfl)
    refine ⟨hor, ?_, if_neg fun h => hheld h.2⟩
    rw [hor, if_pos Option.isSome_some]
    exact isSigned_mergeState _ _
  · intro p hp
    rw [hp]
    rfl
  · -- whichever side brings the transaction also brings its inputs
    intro htransaction
    dsimp only at htransaction ⊢
    split
    · rename_i hreleased
      exact hsource hreleased.1
    · rename_i hkeep
      intro hnone
      rw [Option.isSome_or, Bool.or_eq_true] at htransaction
      rcases htransaction with hsome | hsome
      · exact hlive hsome hnone
      · exact hkeep ⟨hsome, hnone⟩

theorem mergeSource_follows {old : Registry QiOperation.id}
    {s s' : Registry QiOperation.id × QiMergeReport} {source : QiOperation} (hsource : Holds source)
    (hs : old.Follows QiOperation.Kept s.1 ∧ ∀ op ∈ s.1.records, Holds op)
    (h : mergeSource s source = .ok s') :
    old.Follows QiOperation.Kept s'.1 ∧ ∀ op ∈ s'.1.records, Holds op := by
  obtain ⟨hfollows, hholds⟩ := hs
  unfold mergeSource at h
  split at h
  · rename_i hnone
    cases h
    exact ⟨hfollows.insert_new hnone, forall_mem_insert hsource hholds⟩
  · rename_i live hlive
    simp only [bind_eq_ok] at h
    obtain ⟨⟨new, gained⟩, hmerge, h⟩ := h
    cases h
    obtain ⟨hmem, hid⟩ := get?_eq_some.mp hlive
    obtain ⟨hkept, hnew⟩ := mergeOperation_kept (hholds live hmem) hsource hmerge
    exact ⟨hfollows.insert_old .trans (by rw [hkept.id, hid]; exact hlive) hkept,
      forall_mem_insert hnew hholds⟩

theorem kept_dropObservations {old : QiOperation} (h : old.Kept op) :
    old.Kept (dropObservations op) where
  id := h.id
  signed hash hold := by
    obtain ⟨htransaction, hsigned, hclaims⟩ := h.signed hash hold
    exact ⟨htransaction, (isSigned_importedState op.state).trans hsigned, hclaims⟩
  payload := h.payload
  edges := h.edges

theorem merged_change {incoming : QiOperationBook C} {report : QiMergeReport} (hvalid : book.Valid)
    (hincoming : incoming.Valid) (hbrought : incoming.addresses.records ⊆ brought)
    (h : book.merged incoming = .ok (book', report)) : Change book brought book' := by
  simp only [merged, eq_ok, Prod.mk.injEq] at h
  obtain ⟨⟨addresses, found⟩, haddresses, ⟨operations, found'⟩, hfold, _, hcandidate, bytes,
    hbytes, rfl, -⟩ := h
  have hadded : Added book.scope brought book.addresses addresses :=
    foldlM_invariant_mem (P := fun s : Registry address × QiMergeReport =>
        Added book.scope brought book.addresses s.1)
      (fun s a s' hmem hs hstep => by
        simp only [mergeAddress, eq_ok] at hstep
        obtain ⟨added, hadd, rfl⟩ := hstep
        exact hs.trans (addAddress_added (hbrought hmem) hadd))
      .refl haddresses
  obtain ⟨hfollows, -⟩ := foldlM_invariant_mem
    (P := fun s : Registry QiOperation.id × QiMergeReport =>
      book.operations.Follows QiOperation.Kept s.1 ∧ ∀ op ∈ s.1.records, Holds op)
    (fun s source s' hmem hs hstep =>
      mergeSource_follows (holds_of_sound (hincoming.sound source hmem)) hs hstep)
    ⟨(Retains.refl hvalid).operations, fun op hop => holds_of_sound (hvalid.sound op hop)⟩ hfold
  exact .merge addresses _ hadded (hfollows.map_right kept_dropObservations)
    (validate_eq_ok.mp hcandidate) ⟨bytes, hbytes⟩

section Calls

variable {book' : QiOperationBook C} {id : ReservationId}

open Method CustodyBook

variable {u : Unit} {op : QiOperation} {signed : SignedQiOperation C}
  {inclusion : Option (Hash32 × Block)}

theorem inclusion_eq_none (h : op.Sound book) (hstate : op.state ≠ .confirmed) :
    op.inclusion = none := by
  rw [← Option.not_isSome_iff_eq_none, ← h.confirmed]
  exact hstate

theorem sound_commit (h : op.Sound book) {payload : Bytes} {hash : Hash32}
    (hclaims : book.checkClaims op.claims signed.transaction = .ok ())
    (hhash : signed.hash = .ok hash) (hzone : hash.byte 0 = book.scope.zone.byte)
    (hpayload : signed.signedBytes = .ok payload) (hstate : op.state ≠ .released)
    (hsame : ∀ old ∈ op.transaction, old = hash) (hnone : op.payload = none) :
    QiOperation.Sound book { op with
      payload := some payload
      transaction := some hash
      state := if op.state = .reserved then .signed else op.state } := by
  have hdecode := SignedQiOperation.decode_signedBytes hpayload
  have hempty := h.edges hnone
  refine { h with
    signed := (commit_state op.state).1 hstate
    released := (commit_state op.state).2.1.trans h.released
    confirmed := (commit_state op.state).2.2.trans h.confirmed
    bare := fun hbare => absurd ((commit_state op.state).1 hstate) (by rw [hbare]; decide)
    root := ?_, edges := nofun, included := ?_ }
  · rintro _ ⟨⟩
    refine ⟨signed, hash, hdecode, hhash, ⟨rfl, hzone⟩, hclaims, ?_⟩
    rw [hempty]
    exact (validateFamily_qi_iff hdecode hhash).mpr ⟨by decide, [], .root⟩
  · intro i hi
    obtain ⟨hcandidate, hblock⟩ := h.included i hi
    refine ⟨?_, hblock⟩
    rcases hcandidate with hroot | ⟨e, he, -⟩
    · exact .inl (congrArg some (hsame _ hroot).symm)
    · rw [hempty] at he
      cases he

theorem reserve_change {checkpoint : Block} {candidateHeight : ℕ} {coins : List CandidateCoin}
    {owners : List PublicAddress}
    (h : reserve id checkpoint candidateHeight coins owners book = (.ok u, book')) :
    Change book owners book' := by
  rw [reserve, self_bind_eq_ok] at h
  simp only [ite_fail_eq_ok, lift_bind_eq_ok, assign_eq_ok] at h
  obtain ⟨hnew, hguard, ⟨seen, addresses⟩, howners, claims, hcoins, bytes, hbytes, rfl⟩ := h
  simp only [not_or, not_le, not_lt] at hguard
  obtain ⟨hroom, hblock, -, hsome, hcoinCount, -⟩ := hguard
  obtain ⟨hfresh, hlength⟩ := foldlM_reserveCoin fresh_nil hcoins
  have hclaims : claims.length = coins.length := by
    rw [hlength, length_nil, Nat.zero_add]
  apply Change.reserve addresses _ (foldlM_reserveOwner howners)
    (Option.not_isSome_iff_eq_none.mp hnew) hroom
  · exact fun c hc => hfresh.free c ((sortClaims_perm claims).mem_iff.mp hc)
  · apply sound_reserve hfresh hblock
    · rintro rfl
      exact hsome (length_eq_zero_iff.mp hclaims.symm)
    · rw [hclaims]
      exact hcoinCount
  · exact ⟨bytes, hbytes⟩

variable (hvalid : book.Valid)

include hvalid

theorem change_observe (hop : book.operations.get? id = some op)
    (hold : isSigned op.state = true) {state : ReservationState}
    (hsigned : isSigned state = true)
    (hconfirmed : state = .confirmed ↔ inclusion.isSome = true)
    (hincluded : ∀ i ∈ inclusion, op.containsCandidate C i.1 ∧ i.2.hash ≠ Hash32.zero)
    (hroom : Exportable (C := C) { book with
      operations := book.operations.insert { op with state, inclusion } } ∨
      inclusion = op.inclusion ∨ inclusion = none) :
    Change book brought { book with
      operations := book.operations.insert { op with state, inclusion } } := by
  obtain ⟨hmem, rfl⟩ := get?_eq_some.mp hop
  have hunreleased : ∀ s : ReservationState, isSigned s = true → s ≠ .released := by
    rintro s hs rfl
    cases hs
  apply Change.replace op _ hop
  · exact ⟨rfl, fun _ ht => ⟨ht, hsigned, rfl⟩, fun _ hp => hp, List.Subset.refl _⟩
  · exact .inl rfl
  · have hsound := hvalid.sound op hmem
    exact { hsound with
      signed := (hsigned.trans hold.symm).trans hsound.signed
      released := (iff_of_false (hunreleased _ hsigned) (hunreleased _ hold)).trans hsound.released
      confirmed := hconfirmed
      bare := fun hbare => absurd (hsigned.symm.trans hbare) (by decide)
      included := hincluded }
  · exact hroom.imp_right fun h => ⟨rfl, .inl rfl, rfl, rfl, rfl, h⟩

theorem releaseUnsigned_change (h : releaseUnsigned id book = (.ok u, book')) :
    Change book brought book' := by
  rw [releaseUnsigned, getMut_bind_eq_ok] at h
  simp only [ite_fail_eq_ok, put_eq_ok, not_not] at h
  obtain ⟨op, hop, hstate, rfl⟩ := h
  obtain ⟨hmem, rfl⟩ := get?_eq_some.mp hop
  have hsound := hvalid.sound op hmem
  have hunsigned : isSigned op.state = false := by
    rw [hstate]
    rfl
  have hnone : op.transaction = none := by
    rw [← Option.not_isSome_iff_eq_none, ← hsound.signed, hunsigned]
    decide
  obtain ⟨hpayload, hedges⟩ := hsound.bare hunsigned
  apply Change.replace op _ hop
  · refine ⟨rfl, ?_, fun _ hp => hp, List.Subset.refl _⟩
    intro hash htransaction
    rw [hnone] at htransaction
    cases htransaction
  · exact .inr rfl
  · refine { hsound with
      signed := hunsigned.symm.trans hsound.signed
      released := iff_of_true rfl rfl
      confirmed := ?_
      bare := fun _ => ⟨hpayload, hedges⟩
      count := Nat.zero_le _
      owned := nofun
      sorted := .nil
      root := ?_ }
    · rw [inclusion_eq_none hsound (by rw [hstate]; decide)]
      exact iff_of_false nofun nofun
    · intro payload hsome
      rw [hpayload] at hsome
      cases hsome
  · exact .inr ⟨rfl, .inr rfl, rfl, rfl, rfl, .inl rfl⟩

theorem commitSigned_change (h : commitSigned id signed book = (.ok u, book')) :
    Change book brought book' := by
  simp only [commitSigned, self_bind_eq_ok, lift_bind_eq_ok, ite_fail_eq_ok, getMut_bind_eq_ok,
    not_not] at h
  obtain ⟨_, hinputs, hash, hhash, hzone, payload, hpayload, op, hop, h⟩ := h
  obtain rfl | ⟨hstate, hsame, hnone, h⟩ := commitPayload_eq_ok h
  · exact .same
  · obtain ⟨hexport, rfl⟩ := install_eq_ok.mp h
    obtain ⟨op', hop', hclaims⟩ := Result.bind_eq_ok.mp hinputs
    cases hop.symm.trans (okOr_eq_ok.mp hop')
    obtain ⟨hmem, rfl⟩ := get?_eq_some.mp hop
    rw [orInvalid, mapError_eq_ok] at hhash hpayload
    have hnew := sound_commit (hvalid.sound op hmem) hclaims hhash hzone hpayload hstate hsame hnone
    refine .replace op _ hop ⟨rfl, ?_, ?_, List.Subset.refl _⟩ (.inl rfl) hnew (.inl hexport)
    · intro old hold
      rw [hsame old hold]
      exact ⟨rfl, hnew.isSigned_of_some rfl, rfl⟩
    · intro p hp
      cases hnone.symm.trans hp

theorem commitReplacement_change {parent : Hash32}
    (h : commitReplacement id parent signed book = (.ok u, book')) :
    Change book brought book' := by
  rw [commitReplacement, getMut_bind_eq_ok] at h
  simp only [ite_fail_eq_ok, lift_bind_eq_ok, ite_pure_eq_ok, install_eq_ok] at h
  obtain ⟨op, hop, hstate, payload, -, ⟨-, rfl⟩ | ⟨-, root, hroot, _, hfamily, hexport, rfl⟩⟩ := h
  · exact .same
  · rw [okOr_eq_ok] at hroot
    obtain ⟨hmem, rfl⟩ := get?_eq_some.mp hop
    have hsound := hvalid.sound op hmem
    obtain ⟨hsigned, hunconfirmed⟩ := isSigned_of_open hstate
    apply Change.replace op _ hop
    · exact ⟨rfl, fun _ ht => ⟨ht, hsigned, rfl⟩, fun _ hp => hp, subset_append_left _ _⟩
    · exact .inl rfl
    · refine { hsound with bare := ?_, root := ?_, edges := ?_, included := ?_ }
      · intro hbare
        exact absurd (hsigned.symm.trans hbare) (by decide)
      · intro p hp
        obtain ⟨tx, hash, htx, hhash, hfirst, hclaims, -⟩ := hsound.root p hp
        rw [show p = root from Option.some.inj (hp.symm.trans hroot)] at htx ⊢
        exact ⟨tx, hash, htx, hhash, hfirst, hclaims, hfamily⟩
      · intro hnone
        rw [hroot] at hnone
        cases hnone
      · rw [inclusion_eq_none hsound hunconfirmed]
        nofun
    · exact .inl hexport

end Calls

theorem custody_keeps :
    (custody (C := C)).Keeps Valid fun book book' => Change book brought book' where
  same _ := .same
  unconfirmed _ hvalid op hop := inclusion_eq_none (hvalid.sound op hop)
  observe _ hvalid _ hop hold _ _ := change_observe hvalid hop hold

theorem new_eq_ok {identity : Hash32} {book : QiOperationBook C}
    (h : new C scope identity = .ok book) :
    book.scope = scope ∧ book.identity = identity ∧ book.addresses = .empty ∧
      book.operations = .empty := by
  unfold new at h
  split at h
  · cases h
    exact ⟨rfl, rfl, rfl, rfl⟩
  · cases h

theorem fromBackup_eq_ok {backup : WalletBackup B} {identity : Hash32}
    {book : QiOperationBook B.toCrypto} (h : fromBackup backup scope identity = .ok book) :
    book.Valid ∧ book.Exportable ∧
      ∀ a ∈ book.addresses.records, a ∈ backup.publicAddresses ∧ Local book.scope a := by
  simp only [fromBackup, eq_ok] at h
  obtain ⟨state, hstate, first, hfirst, addresses, haddresses, operations, -, _, hvalidate, bytes,
    hbytes, h⟩ := h
  cases h
  refine ⟨validate_eq_ok.mp hvalidate, ⟨bytes, hbytes⟩, ?_⟩
  obtain ⟨hscope, -, hempty, -⟩ := new_eq_ok hfirst
  have hadded : Added scope state.addresses first.addresses addresses := by
    refine foldlM_invariant_mem (P := fun s => Added scope state.addresses first.addresses s) ?_
      .refl haddresses
    intro s a s' hmem hs hstep
    unfold importAddress at hstep
    split at hstep
    · exact hs.trans (addAddress_added hmem hstep)
    · cases hstep
      exact hs
  intro a ha
  rcases hadded.new a ha with hold | ⟨hsource, hlocal⟩
  · rw [hempty] at hold
    cases hold
  · refine ⟨mem_flatMap.mpr ⟨state, mem_of_find?_eq_some hstate, hsource⟩, ?_⟩
    rw [hscope]
    exact hlocal

theorem mergeBackup_change {book book' : QiOperationBook B.toCrypto} {backup : WalletBackup B}
    {report : QiMergeReport} (hvalid : book.Valid)
    (h : mergeBackup backup book = (.ok report, book')) :
    Change book backup.publicAddresses book' := by
  simp only [mergeBackup, Method.self_bind_eq_ok, Method.lift_bind_eq_ok, Method.assign_bind_eq_ok,
    Method.pure_eq_ok] at h
  obtain ⟨incoming, hincoming, ⟨candidate, found⟩, hmerged, -, rfl⟩ := h
  obtain ⟨hvalid', -, hsource⟩ := fromBackup_eq_ok hincoming
  exact merged_change hvalid hvalid' (fun a ha => (hsource a ha).1) hmerged

end QiOperationBook

end QuaiSdk.Books
