import QuaiSdk.Books.Account
import QuaiSdk.Storage.FamilyGrowth

/-!
# Steps of an account operation book

What a valid book is, and everything that one successful call can do to it: add a reservation,
replace one operation by one that keeps its claims, or merge a backup.
-/

namespace QuaiSdk.Books

open Result Wallet Storage Registry
open ReservationState (isSigned)

variable {C : Crypto} {B : Backend}

/-- What `validate` asks of one operation. -/
structure AccountOperation.Sound (book : AccountOperationBook C) (op : AccountOperation) : Prop where
  signed : isSigned op.state = op.transaction.isSome
  confirmed : op.state = .confirmed ↔ op.inclusion.isSome = true
  bare : isSigned op.state = false → op.payload = none ∧ op.replacements = []
  candidates : book.validateCandidates op = .ok ()
  included : ∀ i ∈ op.inclusion, i.2.hash ≠ Hash32.zero ∧ op.containsCandidate C i.1

namespace AccountOperationBook

variable {book : AccountOperationBook C}

structure Valid (book : AccountOperationBook C) : Prop where
  count : book.operations.records.length ≤ maxAccountOperations
  distinct : (book.operations.records.map AccountOperation.nonce).Nodup
  below : ∀ op ∈ book.operations.records, op.nonce < book.nextNonce
  sound : ∀ op ∈ book.operations.records, op.Sound book

theorem validateOperation_eq_ok {nonces r : List UInt64} {op : AccountOperation} :
    book.validateOperation nonces op = .ok r ↔
      (op.nonce < book.nextNonce ∧ op.Sound book) ∧ [op.nonce].Nodup ∧
        (∀ n ∈ [op.nonce], n ∉ nonces) ∧ r = [op.nonce].reverse ++ nonces := by
  have hincluded : (¬∃ i ∈ op.inclusion, i.2.hash = Hash32.zero ∨ ¬op.containsCandidate C i.1) ↔
      ∀ i ∈ op.inclusion, i.2.hash ≠ Hash32.zero ∧ op.containsCandidate C i.1 := by
    simp only [not_exists, not_and, not_or, not_not, ne_eq]
  rw [validateOperation, ite_error_eq_ok, ite_error_eq_ok]
  simp only [eq_ok, bare_iff, not_or, hincluded, ne_eq, not_not, eq_iff_iff,
    UInt64.not_le, List.nodup_singleton, true_and, List.mem_singleton, forall_eq,
    List.reverse_singleton, List.singleton_append]
  constructor
  · rintro ⟨⟨hbelow, hnew⟩, ⟨hsigned, hconfirmed, hunsigned⟩, _, hcandidates, hincl, rfl⟩
    exact ⟨⟨hbelow, hsigned, hconfirmed, hunsigned, hcandidates, hincl⟩, hnew, rfl⟩
  · rintro ⟨⟨hbelow, hsound⟩, hnew, rfl⟩
    exact ⟨⟨hbelow, hnew⟩, ⟨hsound.signed, hsound.confirmed, hsound.bare⟩, (), hsound.candidates,
      hsound.included, rfl⟩

theorem validate_eq_ok : book.validate = .ok () ↔ book.Valid := by
  have hkeys : book.operations.records.flatMap (fun op => [op.nonce]) =
      book.operations.records.map AccountOperation.nonce := List.map_eq_flatMap.symm
  have hfold : ∀ r, book.operations.records.foldlM book.validateOperation [] = .ok r ↔
      (∀ op ∈ book.operations.records, op.nonce < book.nextNonce ∧ op.Sound book) ∧
      (book.operations.records.map AccountOperation.nonce).Nodup ∧
      (∀ n ∈ book.operations.records.map AccountOperation.nonce, n ∉ ([] : List UInt64)) ∧
      r = (book.operations.records.map AccountOperation.nonce).reverse ++ [] := by
    intro r
    rw [← hkeys]
    exact foldlM_distinct fun op _ nonces r => @validateOperation_eq_ok C book nonces r op
  rw [validate, ite_error_eq_ok, bind_eq_ok, not_lt]
  constructor
  · rintro ⟨hcount, r, hr, -⟩
    obtain ⟨hall, hdistinct, -, -⟩ := (hfold r).mp hr
    exact ⟨hcount, hdistinct, fun op hop => (hall op hop).1, fun op hop => (hall op hop).2⟩
  · intro h
    refine ⟨h.count, _, (hfold _).mpr ⟨?_, h.distinct, by simp, rfl⟩, rfl⟩
    exact fun op hop => ⟨h.below op hop, h.sound op hop⟩

variable {op : AccountOperation}

theorem sound_congr {book' : AccountOperationBook C} (h : op.Sound book)
    (haddress : book'.address = book.address) (hscope : book'.scope = book.scope) :
    op.Sound book' := by
  have hpayload : book'.checkedPayload = book.checkedPayload := by
    funext nonce payload
    rw [checkedPayload, checkedPayload, haddress, hscope]
  have hcandidates : book'.validateCandidates op = book.validateCandidates op := by
    rw [validateCandidates, validateCandidates, hpayload]
  exact { h with candidates := hcandidates.trans h.candidates }

theorem validateCandidates_of_payload {payload : Bytes} {hash : Hash32}
    (hop : op.payload = some payload) (hchecked : book.checkedPayload op.nonce payload = .ok hash)
    (hhash : op.transaction = some hash) :
    book.validateCandidates op = .ok () ↔ validateFamily C payload op.replacements = .ok () := by
  rw [validateCandidates, hop]
  simp only [hchecked, ok_bind]
  rw [if_neg (by rw [hhash]; exact fun h => h rfl)]

theorem checkedPayload_eq_ok {nonce : UInt64} {payload : Bytes} {hash : Hash32}
    (h : book.checkedPayload nonce payload = .ok hash) :
    ∃ signed, SignedQuaiTransaction.decode C payload = .ok signed ∧ signed.hash = .ok hash := by
  simp only [checkedPayload, eq_ok, orInvalid] at h
  obtain ⟨signed, hdecode, -, hhash⟩ := h
  exact ⟨signed, hdecode, hhash⟩

theorem candidates_of_root {root : Bytes} (h : book.validateCandidates op = .ok ())
    (hroot : op.payload = some root) :
    ∃ hash, book.checkedPayload op.nonce root = .ok hash ∧ op.transaction = some hash := by
  rw [validateCandidates, hroot] at h
  simp only [eq_ok, ne_eq, not_not] at h
  obtain ⟨hash, hchecked, hsame, -⟩ := h
  exact ⟨hash, hchecked, hsame.symm⟩

end AccountOperationBook

/-- What an operation keeps: its identity, and everything that may have left the process. -/
structure AccountOperation.Kept (old new : AccountOperation) : Prop where
  id : new.id = old.id
  nonce : new.nonce = old.nonce
  signed : ∀ h, old.transaction = some h → new.transaction = some h ∧ isSigned new.state = true
  payload : ∀ p, old.payload = some p → new.payload = some p
  edges : old.replacements ⊆ new.replacements

/-- Written in place: a journal needs no more room for it. -/
structure AccountOperation.Shrinks (old new : AccountOperation) : Prop where
  transaction : new.transaction = old.transaction
  payload : new.payload = old.payload
  replacements : new.replacements = old.replacements
  inclusion : new.inclusion = old.inclusion ∨ new.inclusion = none

namespace AccountOperation

theorem Sound.isSigned_of_some {book : AccountOperationBook C} {op : AccountOperation}
    (h : op.Sound book) {hash : Hash32} (htransaction : op.transaction = some hash) :
    isSigned op.state = true := by
  rw [h.signed, htransaction]
  rfl

theorem Kept.trans {a b c : AccountOperation} (hab : a.Kept b) (hbc : b.Kept c) : a.Kept c where
  id := hbc.id.trans hab.id
  nonce := hbc.nonce.trans hab.nonce
  signed h ha := hbc.signed h (hab.signed h ha).1
  payload p ha := hbc.payload p (hab.payload p ha)
  edges := fun _ he => hbc.edges (hab.edges he)

end AccountOperation

namespace AccountOperationBook

variable {book : AccountOperationBook C}

def Exportable (book : AccountOperationBook C) : Prop := ∃ b, book.exportState = .ok b

/-- Everything a successful call can do to a book.  New bytes come with an export. -/
inductive Change (book : AccountOperationBook C) : AccountOperationBook C → Prop where
  | same : Change book book
  | reserve (op : AccountOperation) (hnew : book.operations.get? op.id = none)
      (hroom : book.operations.records.length < maxAccountOperations)
      (habove : book.nextNonce ≤ op.nonce) (hmax : op.nonce.toNat + 1 < 2 ^ 64)
      (hsound : op.Sound book)
      (hexport : Exportable { book with
        operations := book.operations.insert op
        nextNonce := op.nonce + 1 }) :
      Change book { book with
        operations := book.operations.insert op
        nextNonce := op.nonce + 1 }
  | replace (old op : AccountOperation) (hold : book.operations.get? old.id = some old)
      (hkept : old.Kept op) (hsound : op.Sound book)
      (hroom : Exportable { book with operations := book.operations.insert op } ∨ old.Shrinks op) :
      Change book { book with operations := book.operations.insert op }
  | merge (nextNonce : UInt64) (operations : Registry AccountOperation.id)
      (hnext : book.nextNonce ≤ nextNonce)
      (hkept : book.operations.Follows AccountOperation.Kept operations)
      (hvalid : Valid { book with nextNonce, operations })
      (hexport : Exportable { book with nextNonce, operations }) :
      Change book { book with nextNonce, operations }

/-- A book forgets no operation and no claim. -/
structure Retains (old new : AccountOperationBook C) : Prop where
  next : old.nextNonce ≤ new.nextNonce
  operations : old.operations.Follows AccountOperation.Kept new.operations

variable {op : AccountOperation} {book' : AccountOperationBook C}

theorem Retains.refl (h : book.Valid) : Retains book book where
  next := UInt64.le_refl _
  operations := .refl fun op hop => ⟨rfl, rfl,
    fun _ ht => ⟨ht, (h.sound op hop).isSigned_of_some ht⟩, fun _ hp => hp, List.Subset.refl _⟩

theorem Change.retains (h : Change book book') (hvalid : book.Valid) : Retains book book' := by
  cases h with
  | same => exact .refl hvalid
  | reserve op hnew hroom habove hmax hsound hexport =>
    constructor
    · rw [UInt64.le_iff_toNat_le] at habove ⊢
      rw [UInt64.toNat_add, UInt64.toNat_one]
      omega
    · exact .insert_new (Retains.refl hvalid).operations hnew
  | replace old op hold hkept =>
    refine ⟨UInt64.le_refl _, ?_⟩
    exact .insert_old .trans (Retains.refl hvalid).operations (by rw [hkept.id]; exact hold) hkept
  | merge nextNonce operations hnext hkept => exact ⟨hnext, hkept⟩

theorem Change.valid (h : Change book book') (hvalid : book.Valid) : book'.Valid := by
  cases h with
  | same => exact hvalid
  | reserve op hnew hroom habove hmax hsound hexport =>
    have hperm := insert_perm_of_none hnew
    have hnext : ∀ n, n < book.nextNonce → n < op.nonce + 1 := by
      intro n hn
      rw [UInt64.lt_iff_toNat_lt] at hn ⊢
      rw [UInt64.le_iff_toNat_le] at habove
      rw [UInt64.toNat_add, UInt64.toNat_one]
      omega
    constructor
    · rw [length_insert_of_none hnew]
      exact hroom
    · -- the new nonce is at or above the cursor, all others are below it
      rw [(hperm.map _).nodup_iff, List.map_cons, List.nodup_cons]
      refine ⟨?_, hvalid.distinct⟩
      intro hmem
      obtain ⟨other, hother, hnonce⟩ := List.mem_map.mp hmem
      have hbelow := hvalid.below other hother
      rw [hnonce, UInt64.lt_iff_toNat_lt] at hbelow
      rw [UInt64.le_iff_toNat_le] at habove
      omega
    · refine forall_mem_insert ?_ fun other hother => hnext _ (hvalid.below other hother)
      rw [UInt64.lt_iff_toNat_lt, UInt64.toNat_add, UInt64.toNat_one]
      omega
    · exact forall_mem_insert (sound_congr hsound rfl rfl)
        fun other hother => sound_congr (hvalid.sound other hother) rfl rfl
  | replace old op hold hkept hsound =>
    have hsplit := perm_of_get? hold
    have hperm := insert_perm op book.operations
    rw [hkept.id] at hperm
    constructor
    · rw [length_insert_of_some (by rw [hkept.id]; exact hold)]
      exact hvalid.count
    · rw [(hperm.map _).nodup_iff, List.map_cons, hkept.nonce, ← List.map_cons,
        ← (hsplit.map _).nodup_iff]
      exact hvalid.distinct
    · apply forall_mem_insert _ hvalid.below
      rw [hkept.nonce]
      exact hvalid.below old (get?_eq_some.mp hold).1
    · exact forall_mem_insert (sound_congr hsound rfl rfl)
        fun other hother => sound_congr (hvalid.sound other hother) rfl rfl
  | merge nextNonce operations hnext hkept hmerged => exact hmerged

theorem mergeOperation_kept {live source : AccountOperation} {gained : ℕ}
    (h : mergeOperation live source = .ok (op, gained)) : live.Kept op ∧ op.id = live.id := by
  simp only [mergeOperation, eq_ok, Prod.mk.injEq] at h
  obtain ⟨-, rfl, -⟩ := h
  refine ⟨⟨rfl, rfl, ?_, ?_, subset_mergeEdges _ _⟩, rfl⟩
  · intro hash hlive
    have hor : live.transaction.or source.transaction = some hash := by
      rw [hlive]
      rfl
    refine ⟨hor, ?_⟩
    rw [hor, if_pos Option.isSome_some]
    exact isSigned_mergeState _ _
  · intro p hp
    rw [hp]
    rfl

theorem mergeSource_follows {old : Registry AccountOperation.id}
    {s s' : Registry AccountOperation.id × AccountMergeReport} {source : AccountOperation}
    (hs : old.Follows AccountOperation.Kept s.1) (h : mergeSource s source = .ok s') :
    old.Follows AccountOperation.Kept s'.1 := by
  unfold mergeSource at h
  split at h
  · rename_i hnone
    cases h
    exact hs.insert_new hnone
  · rename_i live hlive
    simp only [bind_eq_ok] at h
    obtain ⟨⟨new, gained⟩, hmerge, h⟩ := h
    cases h
    obtain ⟨hnew, hid⟩ := mergeOperation_kept hmerge
    rw [← (get?_eq_some.mp hlive).2] at hlive
    exact hs.insert_old .trans (by rw [hid]; exact hlive) hnew

theorem kept_dropInclusion {old : AccountOperation} (h : old.Kept op) :
    old.Kept (dropInclusion op) where
  id := h.id
  nonce := h.nonce
  signed hash hold := by
    obtain ⟨htransaction, hsigned⟩ := h.signed hash hold
    exact ⟨htransaction, (isSigned_importedState op.state).trans hsigned⟩
  payload := h.payload
  edges := h.edges

theorem merged_change {incoming : AccountOperationBook C} {report : AccountMergeReport}
    (hvalid : book.Valid) (h : book.merged incoming = .ok (book', report)) : Change book book' := by
  simp only [merged, eq_ok, Prod.mk.injEq] at h
  obtain ⟨⟨operations, found⟩, hfold, _, hcandidate, bytes, hbytes, rfl, -⟩ := h
  have hfollows : book.operations.Follows AccountOperation.Kept operations :=
    foldlM_invariant (P := fun s => book.operations.Follows AccountOperation.Kept s.1)
      (fun s source s' hs hstep => mergeSource_follows hs hstep) (Retains.refl hvalid).operations hfold
  apply Change.merge
  · rw [UInt64.le_iff_toNat_le, UInt64.toNat_max]
    exact le_max_left _ _
  · exact hfollows.map_right kept_dropInclusion
  · exact validate_eq_ok.mp hcandidate
  · exact ⟨bytes, hbytes⟩

section Calls

variable {book' : AccountOperationBook C} {id : ReservationId}

open Method CustodyBook

variable {u : Unit} {op : AccountOperation} {state : ReservationState}
  {inclusion : Option (Hash32 × Block)}

theorem inclusion_eq_none (h : op.Sound book) (hstate : op.state ≠ .confirmed) :
    op.inclusion = none := by
  rw [← Option.not_isSome_iff_eq_none, ← h.confirmed]
  exact hstate

theorem reserveNonce_change {remotePending nonce : UInt64}
    (h : reserveNonce id remotePending book = (.ok nonce, book')) : Change book book' := by
  rw [reserveNonce, self_bind_eq_ok] at h
  simp only [ite_fail_eq_ok, lift_bind_eq_ok, assign_bind_eq_ok, Method.pure_eq_ok] at h
  obtain ⟨hnew, hroom, hmax, bytes, hbytes, -, rfl⟩ := h
  rw [Option.not_isSome_iff_eq_none] at hnew
  apply Change.reserve ⟨id, max book.nextNonce remotePending, .reserved, none, none, [], none⟩ hnew
    (not_le.mp hroom)
  · rw [UInt64.le_iff_toNat_le, UInt64.toNat_max]
    exact le_max_left _ _
  · have hlt := (max book.nextNonce remotePending).toNat_lt
    change (max book.nextNonce remotePending).toNat + 1 < 2 ^ 64
    omega
  · exact ⟨rfl, iff_of_false (by simp) (by simp), fun _ => ⟨rfl, rfl⟩, rfl, by simp⟩
  · exact ⟨bytes, hbytes⟩

theorem sound_commit (h : op.Sound book) {payload : Bytes} {hash : Hash32}
    (hchecked : book.checkedPayload op.nonce payload = .ok hash) (hstate : op.state ≠ .released)
    (hsame : ∀ old ∈ op.transaction, old = hash) (hnone : op.payload = none) :
    AccountOperation.Sound book { op with
      payload := some payload
      transaction := some hash
      state := if op.state = .reserved then .signed else op.state } where
  signed := (commit_state op.state).1 hstate
  confirmed := (commit_state op.state).2.2.trans h.confirmed
  bare hbare := absurd ((commit_state op.state).1 hstate) (by rw [hbare]; decide)
  candidates := by
    obtain ⟨signed, hdecode, hhash⟩ := checkedPayload_eq_ok hchecked
    have hcandidates := h.candidates
    rw [validateCandidates, hnone, ite_error_eq_ok, not_not] at hcandidates
    have hfamily : validateFamily C payload op.replacements = .ok () := by
      rw [hcandidates.1]
      exact (validateFamily_quai_iff hdecode hhash).mpr ⟨by decide, [], .root⟩
    exact Iff.mpr (validateCandidates_of_payload rfl hchecked rfl) hfamily
  included := by
    intro i hi
    obtain ⟨hblock, hcandidate⟩ := h.included i hi
    refine ⟨hblock, hcandidate.imp_left ?_⟩
    intro hroot
    rw [hsame i.1 hroot]

variable (hvalid : book.Valid)

include hvalid

section

variable (hop : book.operations.get? id = some op) (hsigned : isSigned state = isSigned op.state)
include hop hsigned

theorem change_observe (hconfirmed : state = .confirmed ↔ inclusion.isSome = true)
    (hincluded : ∀ i ∈ inclusion, i.2.hash ≠ Hash32.zero ∧ op.containsCandidate C i.1)
    (hroom : Exportable { book with
      operations := book.operations.insert { op with state, inclusion } } ∨
      inclusion = op.inclusion ∨ inclusion = none) :
    Change book { book with
      operations := book.operations.insert { op with state, inclusion } } := by
  obtain ⟨hmem, rfl⟩ := get?_eq_some.mp hop
  have hsound := hvalid.sound op hmem
  apply Change.replace op _ hop
  · exact ⟨rfl, rfl, fun _ ht => ⟨ht, hsigned.trans (hsound.isSigned_of_some ht)⟩, fun _ hp => hp,
      List.Subset.refl _⟩
  · exact ⟨hsigned.trans hsound.signed, hconfirmed, fun hbare => hsound.bare (hsigned.symm.trans hbare),
      hsound.candidates, hincluded⟩
  · exact hroom.imp_right fun h => ⟨rfl, rfl, rfl, h⟩

theorem change_state (hold : op.state ≠ .confirmed) (hnew : state ≠ .confirmed) :
    Change book { book with operations := book.operations.insert { op with state } } := by
  have hnone := inclusion_eq_none (hvalid.sound op (get?_eq_some.mp hop).1) hold
  apply change_observe hvalid hop hsigned
  · rw [hnone]
    exact iff_of_false hnew (by decide)
  · rw [hnone]
    simp
  · exact .inr (.inl rfl)

end

theorem releaseUnsigned_change (h : releaseUnsigned id book = (.ok u, book')) :
    Change book book' := by
  rw [releaseUnsigned, getMut_bind_eq_ok] at h
  simp only [ite_fail_eq_ok, put_eq_ok, not_not] at h
  obtain ⟨op, hop, hstate, rfl⟩ := h
  exact change_state hvalid hop (by rw [hstate]; rfl) (by rw [hstate]; decide) (by decide)

theorem reopenUnsigned_change (h : reopenUnsigned id book = (.ok u, book')) :
    Change book book' := by
  rw [reopenUnsigned, getMut_bind_eq_ok] at h
  simp only [ite_fail_eq_ok, put_eq_ok, not_not] at h
  obtain ⟨op, hop, hstate, rfl⟩ := h
  exact change_state hvalid hop (by rw [hstate]; rfl) (by rw [hstate]; decide) (by decide)

theorem commitSigned_change {signed : SignedQuaiTransaction C}
    (h : commitSigned id signed book = (.ok u, book')) : Change book book' := by
  rw [commitSigned, getMut_bind_eq_ok] at h
  simp only [lift_bind_eq_ok, self_bind_eq_ok] at h
  obtain ⟨op, hop, payload, -, hash, hchecked, h⟩ := h
  obtain rfl | ⟨hstate, hsame, hnone, h⟩ := commitPayload_eq_ok h
  · exact .same
  · obtain ⟨hexport, rfl⟩ := install_eq_ok.mp h
    obtain ⟨hmem, rfl⟩ := get?_eq_some.mp hop
    have hnew := sound_commit (hvalid.sound op hmem) hchecked hstate hsame hnone
    refine .replace op _ hop ⟨rfl, rfl, ?_, ?_, List.Subset.refl _⟩ hnew (.inl hexport)
    · intro old hold
      rw [hsame old hold]
      exact ⟨rfl, hnew.isSigned_of_some rfl⟩
    · intro p hp
      cases hnone.symm.trans hp

theorem commitReplacement_change {parent : Hash32} {signed : SignedQuaiTransaction C}
    (h : commitReplacement id parent signed book = (.ok u, book')) : Change book book' := by
  rw [commitReplacement, getMut_bind_eq_ok] at h
  simp only [ite_fail_eq_ok, lift_bind_eq_ok, ite_pure_eq_ok, install_eq_ok] at h
  obtain ⟨op, hop, hstate, root, hroot, payload, -, ⟨-, rfl⟩ | ⟨-, _, hfamily, hexport, rfl⟩⟩ := h
  · exact .same
  · obtain ⟨hmem, rfl⟩ := get?_eq_some.mp hop
    have hsound := hvalid.sound op hmem
    obtain ⟨hsigned, hunconfirmed⟩ := isSigned_of_open hstate
    have hnone := inclusion_eq_none hsound hunconfirmed
    obtain ⟨hash, hchecked, htransaction⟩ :=
      candidates_of_root hsound.candidates (okOr_eq_ok.mp hroot)
    apply Change.replace op _ hop
    · exact ⟨rfl, rfl, fun _ ht => ⟨ht, hsigned⟩, fun _ hp => hp, List.subset_append_left _ _⟩
    · constructor
      · exact hsound.signed
      · exact hsound.confirmed
      · intro hbare
        exact absurd (hsigned.symm.trans hbare) (by decide)
      · exact Iff.mpr (validateCandidates_of_payload (okOr_eq_ok.mp hroot) hchecked htransaction)
          hfamily
      · intro i hi
        rw [hnone] at hi
        cases hi
    · exact .inl hexport

end Calls

theorem custody_keeps : (custody (C := C)).Keeps Valid Change where
  same _ := .same
  unconfirmed _ hvalid op hop := inclusion_eq_none (hvalid.sound op hop)
  observe _ hvalid _ hop hold _ _ hsigned hconfirmed hincluded hroom :=
    change_observe hvalid hop (hsigned.trans hold.symm) hconfirmed
      (fun i hi => (hincluded i hi).symm) hroom

theorem mergeBackup_change {book book' : AccountOperationBook B.toCrypto} {backup : WalletBackup B}
    {report : AccountMergeReport} (hvalid : book.Valid)
    (h : mergeBackup backup book = (.ok report, book')) : Change book book' := by
  simp only [mergeBackup, Method.self_bind_eq_ok, Method.lift_bind_eq_ok, Method.assign_bind_eq_ok,
    Method.pure_eq_ok] at h
  obtain ⟨incoming, -, ⟨candidate, found⟩, hmerged, -, rfl⟩ := h
  exact merged_change hvalid hmerged

end AccountOperationBook

end QuaiSdk.Books
