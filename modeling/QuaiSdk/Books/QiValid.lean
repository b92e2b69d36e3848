import QuaiSdk.Books.Qi
import QuaiSdk.Storage.FamilyGrowth

/-!
# Valid Qi operation books

What `validate` accepts: outpoints held once, every claim under a known owner, and every signature over
exactly the claims of its operation.
-/

namespace QuaiSdk.Books

open Result Wallet Storage List
open ReservationState (isSigned)

variable {C : Crypto}

namespace QiOperationBook

variable {book : QiOperationBook C}

def Backed (book : QiOperationBook C) (claims : List QiInputClaim) (input : QiInput C) : Prop :=
  ∃ claim metadata, claims.find? (fun c => c.outpoint = input.previousOutput) = some claim ∧
    book.addresses.get? claim.owner.address = some metadata ∧
    C.address input.publicKey = claim.owner.address ∧
    C.toCompressed input.publicKey = metadata.publicKey

variable {claims : List QiInputClaim}

theorem checkInput_eq_ok {seen r : List OutPoint} {input : QiInput C} :
    book.checkInput claims seen input = .ok r ↔ book.Backed claims input ∧
      [input.previousOutput].Nodup ∧ (∀ o ∈ [input.previousOutput], o ∉ seen) ∧
      r = [input.previousOutput].reverse ++ seen := by
  simp only [checkInput, eq_ok, not_or, not_not, Backed, nodup_singleton, true_and, mem_singleton,
    forall_eq, reverse_singleton, singleton_append]
  constructor
  · rintro ⟨claim, hclaim, metadata, hmetadata, ⟨hnew, haddress, hkey⟩, rfl⟩
    exact ⟨⟨claim, metadata, hclaim, hmetadata, haddress, hkey⟩, hnew, rfl⟩
  · rintro ⟨⟨claim, metadata, hclaim, hmetadata, haddress, hkey⟩, hnew, rfl⟩
    exact ⟨claim, hclaim, metadata, hmetadata, ⟨hnew, haddress, hkey⟩, rfl⟩

theorem checkClaims_eq_ok {tx : QiTransaction C} : book.checkClaims claims tx = .ok () ↔
      (tx.chainId = book.scope.chainId ∧ tx.inputs ≠ [] ∧ tx.inputs.length = claims.length) ∧
      (∀ i ∈ tx.inputs, book.Backed claims i) ∧ (tx.inputs.map QiInput.previousOutput).Nodup := by
  have hfold : ∀ r, tx.inputs.foldlM (book.checkInput claims) [] = .ok r ↔
      (∀ i ∈ tx.inputs, book.Backed claims i) ∧ (tx.inputs.map QiInput.previousOutput).Nodup ∧
      (∀ o ∈ tx.inputs.map QiInput.previousOutput, o ∉ ([] : List OutPoint)) ∧
      r = (tx.inputs.map QiInput.previousOutput).reverse ++ [] := by
    intro r
    rw [map_eq_flatMap]
    exact foldlM_distinct fun i _ seen r => @checkInput_eq_ok C book claims seen r i
  rw [checkClaims, ite_error_eq_ok, bind_eq_ok]
  simp only [not_or, not_not]
  constructor
  · rintro ⟨hshape, r, hr, -⟩
    obtain ⟨hbacked, hnodup, -, -⟩ := (hfold r).mp hr
    exact ⟨hshape, hbacked, hnodup⟩
  · rintro ⟨hshape, hbacked, hnodup⟩
    exact ⟨hshape, _, (hfold _).mpr ⟨hbacked, hnodup, by simp, rfl⟩, trivial⟩

theorem inputs_perm_claims {tx : QiTransaction C} (h : book.checkClaims claims tx = .ok ()) :
    (tx.inputs.map fun i => (i.previousOutput, C.address i.publicKey)).Perm
      (claims.map fun c => (c.outpoint, c.owner.address)) := by
  obtain ⟨⟨-, -, hlength⟩, hbacked, hnodup⟩ := checkClaims_eq_ok.mp h
  have hdistinct : (tx.inputs.map fun i => (i.previousOutput, C.address i.publicKey)).Nodup := by
    apply List.Nodup.of_map Prod.fst
    rw [map_map]
    exact hnodup
  have hsubset : (tx.inputs.map fun i => (i.previousOutput, C.address i.publicKey)) ⊆
      claims.map fun c => (c.outpoint, c.owner.address) := by
    intro pair hpair
    obtain ⟨i, hi, rfl⟩ := mem_map.mp hpair
    obtain ⟨claim, -, hclaim, -, haddress, -⟩ := hbacked i hi
    have hfound := find?_some hclaim
    have hsame : claim.outpoint = i.previousOutput := of_decide_eq_true hfound
    rw [← hsame, haddress]
    exact mem_map_of_mem (mem_of_find?_eq_some hclaim)
  apply (subperm_of_subset hdistinct hsubset).perm_of_length_le
  rw [length_map, length_map, hlength]

theorem foldlM_validateClaim {held held' : List OutPoint}
    {last : Option OutPoint} :
    (∃ last', claims.foldlM book.validateClaim (held, last) = .ok (held', last')) ↔
      (∀ c ∈ claims, book.ValidOutpoint c) ∧
      (claims.Pairwise fun a b => a.outpoint < b.outpoint) ∧
      (∀ p ∈ last, ∀ c ∈ claims, p < c.outpoint) ∧ (∀ c ∈ claims, c.outpoint ∉ held) ∧
      held' = (claims.map QiInputClaim.outpoint).reverse ++ held := by
  induction claims generalizing held last with
  | nil => simp [eq_comm]
  | cons c claims ih =>
    have hstep : (∃ last', (c :: claims).foldlM book.validateClaim (held, last) =
          .ok (held', last')) ↔
        (book.ValidOutpoint c ∧ c.outpoint ∉ held ∧ ∀ p ∈ last, p < c.outpoint) ∧
          ∃ last', claims.foldlM book.validateClaim (c.outpoint :: held, some c.outpoint) =
            .ok (held', last') := by
      simp only [foldlM_cons, eq_ok, validateClaim, not_or, not_not, not_exists, not_and, not_le]
      constructor
      · rintro ⟨last', _, ⟨hc, rfl⟩, hrest⟩
        exact ⟨hc, last', hrest⟩
      · rintro ⟨hc, last', hrest⟩
        exact ⟨last', _, ⟨hc, rfl⟩, hrest⟩
    rw [hstep, ih, pairwise_cons]
    simp only [forall_mem_cons, map_cons, reverse_cons, append_assoc,
      singleton_append, Option.mem_def, Option.some.injEq, forall_eq']
    constructor
    · rintro ⟨⟨hc, hnew, hlast⟩, hvalid, hsorted, habove, hfree, rfl⟩
      refine ⟨⟨hc, hvalid⟩, ⟨habove, hsorted⟩, ?_, ⟨hnew, ?_⟩, rfl⟩
      · exact fun p hp => ⟨hlast p hp, fun d hd => lt_trans (hlast p hp) (habove d hd)⟩
      · exact fun d hd hmem => hfree d hd (mem_cons_of_mem _ hmem)
    · rintro ⟨⟨hc, hvalid⟩, ⟨habove, hsorted⟩, hlast, ⟨hnew, hfree⟩, rfl⟩
      refine ⟨⟨hc, hnew, fun p hp => (hlast p hp).1⟩, hvalid, hsorted, habove, ?_, rfl⟩
      intro d hd hmem
      rcases mem_cons.mp hmem with heq | hmem
      · exact absurd heq (ne_of_gt (habove d hd))
      · exact hfree d hd hmem

end QiOperationBook

/-- The payload is the operation's transaction; it spends the claims and roots the family. -/
def QiOperationBook.Rooted (book : QiOperationBook C) (op : QiOperation) (payload : Bytes) : Prop :=
  ∃ tx hash, SignedQiOperation.decode C payload = .ok tx ∧ tx.hash = .ok hash ∧
    (op.transaction = some hash ∧ hash.byte 0 = book.scope.zone.byte) ∧
    book.checkClaims op.claims tx.transaction = .ok () ∧
    validateFamily C payload op.replacements = .ok ()

/-- What `validate` asks of one operation of the book. -/
structure QiOperation.Sound (book : QiOperationBook C) (op : QiOperation) : Prop where
  signed : isSigned op.state = op.transaction.isSome
  released : op.state = .released ↔ op.claims = []
  confirmed : op.state = .confirmed ↔ op.inclusion.isSome = true
  bare : isSigned op.state = false → op.payload = none ∧ op.replacements = []
  count : op.claims.length ≤ 4096
  checkpoint : ∀ b ∈ op.reservationCheckpoint, b.hash ≠ Hash32.zero
  owned : ∀ c ∈ op.claims, book.ValidOutpoint c
  sorted : op.claims.Pairwise fun a b => a.outpoint < b.outpoint
  root : ∀ payload, op.payload = some payload → book.Rooted op payload
  edges : op.payload = none → op.replacements = []
  included : ∀ i ∈ op.inclusion, op.containsCandidate C i.1 ∧ i.2.hash ≠ Hash32.zero

namespace QiOperationBook

variable {book : QiOperationBook C}

structure Valid (book : QiOperationBook C) : Prop where
  count : book.operations.records.length ≤ maxQiOperations
  addressCount : book.addresses.records.length ≤ maxQiCustodyAddresses
  distinct : book.claimedOutpoints.Nodup
  sound : ∀ op ∈ book.operations.records, op.Sound book

theorem validateCandidates_eq_ok {op : QiOperation} (hop : op ∈ book.operations.records) :
    book.validateCandidates op = .ok () ↔
      (∀ payload, op.payload = some payload → book.Rooted op payload) ∧
        (op.payload = none → op.replacements = []) := by
  have hinputs : ∀ tx, book.checkInputs op.id tx = book.checkClaims op.claims tx := by
    intro tx
    rw [checkInputs, Registry.get?_eq_some.mpr ⟨hop, rfl⟩]
    rfl
  rw [validateCandidates]
  cases hpayload : op.payload with
  | none =>
    simp only [ite_error_eq_ok, not_not, reduceCtorEq, false_implies, implies_true, true_and,
      and_true, true_implies]
  | some =>
    simp only [eq_ok, orInvalid, not_or, not_not, hinputs,
      Option.some.injEq, forall_eq', reduceCtorEq, false_implies, and_true]
    constructor
    · rintro ⟨tx, htx, hash, hhash, ⟨hsame, hzone⟩, _, hclaims, hfamily⟩
      exact ⟨tx, hash, htx, hhash, ⟨hsame.symm, hzone⟩, hclaims, hfamily⟩
    · rintro ⟨tx, hash, htx, hhash, ⟨hsame, hzone⟩, hclaims, hfamily⟩
      exact ⟨tx, htx, hash, hhash, ⟨hsame.symm, hzone⟩, (), hclaims, hfamily⟩

theorem validateOperation_eq_ok {held r : List OutPoint} {op : QiOperation}
    (hop : op ∈ book.operations.records) :
    book.validateOperation held op = .ok r ↔
      op.Sound book ∧ (op.claims.map QiInputClaim.outpoint).Nodup ∧
        (∀ o ∈ op.claims.map QiInputClaim.outpoint, o ∉ held) ∧
        r = (op.claims.map QiInputClaim.outpoint).reverse ++ held := by
  have hblock : (¬∃ b ∈ op.reservationCheckpoint, b.hash = Hash32.zero) ↔
      ∀ b ∈ op.reservationCheckpoint, b.hash ≠ Hash32.zero := by
    simp only [not_exists, not_and, ne_eq]
  have hincluded : (¬∃ i ∈ op.inclusion, ¬op.containsCandidate C i.1 ∨ i.2.hash = Hash32.zero) ↔
      ∀ i ∈ op.inclusion, op.containsCandidate C i.1 ∧ i.2.hash ≠ Hash32.zero := by
    simp only [not_exists, not_and, not_or, not_not, ne_eq]
  rw [validateOperation, ite_error_eq_ok]
  simp only [eq_ok, bare_iff, not_or, hblock, hincluded, ne_eq, not_not,
    eq_iff_iff, not_lt, forall_mem_map]
  constructor
  · rintro ⟨⟨hsigned, hreleased, hconfirmed, hunsigned, hcount, hcheckpoint⟩, ⟨held', last⟩, hclaims,
      _, hcandidates, hincl, rfl⟩
    obtain ⟨howned, hsorted, -, hfree, rfl⟩ := foldlM_validateClaim.mp ⟨last, hclaims⟩
    obtain ⟨hroot, hedges⟩ := (validateCandidates_eq_ok hop).mp hcandidates
    refine ⟨⟨hsigned, hreleased, hconfirmed, hunsigned, hcount, hcheckpoint, howned, hsorted, hroot,
      hedges, hincl⟩, ?_, hfree, rfl⟩
    rw [List.Nodup, pairwise_map]
    exact hsorted.imp fun h => ne_of_lt h
  · rintro ⟨h, -, hfree, rfl⟩
    obtain ⟨last, hclaims⟩ := Iff.mpr (@foldlM_validateClaim C book op.claims held _ none)
      ⟨h.owned, h.sorted, nofun, hfree, rfl⟩
    exact ⟨⟨h.signed, h.released, h.confirmed, h.bare, h.count, h.checkpoint⟩, (_, last), hclaims, (),
      (validateCandidates_eq_ok hop).mpr ⟨h.root, h.edges⟩, h.included, rfl⟩

theorem validate_eq_ok : book.validate = .ok () ↔ book.Valid := by
  have hfold : ∀ r, book.operations.records.foldlM book.validateOperation [] = .ok r ↔
      (∀ op ∈ book.operations.records, op.Sound book) ∧ book.claimedOutpoints.Nodup ∧
      (∀ o ∈ book.claimedOutpoints, o ∉ ([] : List OutPoint)) ∧
      r = book.claimedOutpoints.reverse ++ [] :=
    fun r => foldlM_distinct fun op hop seen r => @validateOperation_eq_ok C book seen r op hop
  rw [validate, ite_error_eq_ok, bind_eq_ok, not_or, not_lt, not_lt]
  constructor
  · rintro ⟨⟨hcount, haddresses⟩, r, hr, -⟩
    obtain ⟨hsound, hdistinct, -, -⟩ := (hfold r).mp hr
    exact ⟨hcount, haddresses, hdistinct, hsound⟩
  · intro h
    exact ⟨⟨h.count, h.addressCount⟩, _, (hfold _).mpr ⟨h.sound, h.distinct, by simp, rfl⟩, rfl⟩

theorem sound_mono {book' : QiOperationBook C} {op : QiOperation} (h : op.Sound book)
    (hscope : book'.scope = book.scope)
    (hgrow : book.addresses.records ⊆ book'.addresses.records) : op.Sound book' := by
  have hget : ∀ a x, book.addresses.get? a = some x → book'.addresses.get? a = some x := by
    intro a x hx
    rw [Registry.get?_eq_some] at hx ⊢
    exact ⟨hgrow hx.1, hx.2⟩
  have hbacked : ∀ i, book.Backed op.claims i → book'.Backed op.claims i := by
    rintro i ⟨claim, metadata, hclaim, hmetadata, hkeys⟩
    exact ⟨claim, metadata, hclaim, hget _ _ hmetadata, hkeys⟩
  refine { h with owned := ?_, root := ?_ }
  · intro c hc
    obtain ⟨howner, hzone, hzero, hknown⟩ := h.owned c hc
    obtain ⟨x, hx⟩ := Option.isSome_iff_exists.mp hknown
    refine ⟨by rw [hscope]; exact howner, by rw [hscope]; exact hzone, hzero, ?_⟩
    rw [hget _ _ hx]
    rfl
  · intro payload hpayload
    obtain ⟨tx, hash, htx, hhash, hroot, hclaims, hfamily⟩ := h.root payload hpayload
    obtain ⟨hshape, hall, hnodup⟩ := checkClaims_eq_ok.mp hclaims
    refine ⟨tx, hash, htx, hhash, by rw [hscope]; exact hroot, ?_, hfamily⟩
    rw [checkClaims_eq_ok, hscope]
    exact ⟨hshape, fun i hi => hbacked i (hall i hi), hnodup⟩

end QiOperationBook

end QuaiSdk.Books
