import QuaiSdk.Lib.Run
import QuaiSdk.Provider.HeadTracker
import Mathlib.Data.List.Chain
import Mathlib.Data.List.Nodup

/-!
# What a head tracker guarantees

The anchors stay a chain of consecutive heights whatever a node answers.  A consumer that applies the
updates keeps a stack of blocks with the anchors on top, so every update undoes blocks it has and adds
blocks that link to what is left.
-/

namespace QuaiSdk.Provider

open Result BigEndian Hash32 List
open Method (self lift assign)

namespace HeadTracker

def Follows (a b : BlockReference) : Prop := b.number.toNat = a.number.toNat + 1

structure Anchored (genesis : Hash32) (anchors : List BlockReference) : Prop where
  consecutive : anchors.IsChain Follows
  distinct : (anchors.map BlockReference.hash).Nodup
  nonzero : ∀ a ∈ anchors, a.hash ≠ zero
  root : ∀ a ∈ anchors, a.number = 0 → a.hash = genesis

structure Valid (t : HeadTracker) : Prop where
  genesis : t.genesis ≠ zero
  retain : 2 ≤ t.retain ∧ t.retain ≤ 4096
  pageSize : 1 ≤ t.pageSize ∧ t.pageSize ≤ 256
  nonempty : t.anchors ≠ []
  bounded : t.anchors.length ≤ t.retain
  anchored : Anchored t.genesis t.anchors

def Linked : BlockReference → List ZoneHeader → Prop
  | _, [] => True
  | previous, header :: headers =>
    header.parentHash = previous.hash ∧ header.number.toNat = previous.number.toNat + 1 ∧
      Linked header.reference headers

variable {t : HeadTracker} {genesis : Hash32} {anchors : List BlockReference}
  {answers : PollAnswers} {zone : Zone} {previous : BlockReference} {seen : List Hash32}
  {added : List ZoneHeader} {update : HeadUpdate} {r : Replay} {b : Bytes}

theorem Anchored.infix {part : List BlockReference} (h : Anchored genesis anchors)
    (hpart : part <:+: anchors) : Anchored genesis part where
  consecutive := h.consecutive.infix hpart
  distinct := h.distinct.sublist (hpart.sublist.map _)
  nonzero := fun a ha => h.nonzero a (hpart.subset ha)
  root := fun a ha => h.root a (hpart.subset ha)

theorem parseZoneHeader_number {value : Json} {n : ℕ} {header : ZoneHeader}
    (h : parseZoneHeader value zone (.number n) = .ok (some header)) :
    header.number.toNat = n := by
  unfold parseZoneHeader at h
  split at h
  · cases h
  · simp only [eq_ok, not_not] at h
    obtain ⟨parsed, -, -, hn, h⟩ := h
    cases h
    exact hn.symm

theorem findCommon_mem {tip : ZoneHeader} {newest : Json} {entries : List (BlockReference × ℕ)}
    {index : ℕ} (h : t.findCommon answers tip newest entries = .ok (some index)) :
    ∃ anchor, (anchor, index) ∈ entries := by
  induction entries with
  | nil => cases h
  | cons entry rest ih =>
    obtain ⟨anchor, i⟩ := entry
    have hrest : t.findCommon answers tip newest rest = .ok (some index) →
        ∃ anchor', (anchor', index) ∈ (anchor, i) :: rest := by
      intro hrest
      obtain ⟨anchor', hmem⟩ := ih hrest
      exact ⟨anchor', mem_cons_of_mem _ hmem⟩
    rw [findCommon] at h
    split at h
    · exact hrest h
    · obtain ⟨actual, -, h⟩ := bind_eq_ok.mp h
      split at h
      · cases h
        exact ⟨anchor, mem_cons_self⟩
      · exact hrest h

theorem checkPage_eq_ok {fromGenesis : Bool} {entries : List (Json × ℕ)} {last : BlockReference}
    (hnumbers : entries.map Prod.snd = range' (previous.number.toNat + 1) entries.length)
    (h : checkPage zone fromGenesis entries previous seen = .ok (added, last)) :
    Linked previous added ∧ (∀ header ∈ added, header.hash ≠ zero ∧ header.hash ∉ seen) ∧
      (added.map ZoneHeader.hash).Nodup ∧
        last = (added.map ZoneHeader.reference).getLastD previous := by
  induction entries generalizing previous seen added with
  | nil =>
    cases h
    exact ⟨trivial, by simp, nodup_nil, rfl⟩
  | cons entry rest ih =>
    simp only [checkPage, eq_ok, not_or, not_not] at h
    obtain ⟨_, hparse, header, rfl, ⟨hparent, hzero, hfresh⟩, ⟨others, last'⟩, hrest, h⟩ := h
    cases h
    rw [map_cons, length_cons, range'_succ, cons.injEq] at hnumbers
    have hnumber : header.number.toNat = previous.number.toNat + 1 :=
      (parseZoneHeader_number hparse).trans hnumbers.1
    have hnext : rest.map Prod.snd = range' (header.reference.number.toNat + 1) rest.length := by
      rw [hnumbers.2]
      show _ = range' (header.number.toNat + 1) rest.length
      rw [hnumber]
    obtain ⟨hlinked, hhashes, hnodup, hlast⟩ := ih hnext hrest
    refine ⟨⟨hparent, hnumber, hlinked⟩, ?_, ?_, ?_⟩
    · refine forall_mem_cons.mpr ⟨⟨hzero, hfresh⟩, fun other hother => ?_⟩
      obtain ⟨hne, hnew⟩ := hhashes other hother
      exact ⟨hne, fun hseen => hnew (mem_cons_of_mem _ hseen)⟩
    · rw [map_cons, nodup_cons]
      refine ⟨?_, hnodup⟩
      intro hmem
      obtain ⟨other, hother, hsame⟩ := mem_map.mp hmem
      exact (hhashes other hother).2 (hsame ▸ mem_cons_self)
    · rw [hlast, map_cons]
      cases others <;> rfl

def extended (t : HeadTracker) (p : Plan) : List BlockReference :=
  t.anchors.take (p.common + 1) ++ p.added.map ZoneHeader.reference

structure Decided (t : HeadTracker) (p : Plan) : Prop where
  common : p.common < t.anchors.length
  linked : Linked (t.anchors.getD p.common ⟨0, zero⟩) p.added
  nonzero : ∀ header ∈ p.added, header.hash ≠ zero
  fresh : ∀ header ∈ p.added,
    header.hash ∉ (t.anchors.take (p.common + 1)).map BlockReference.hash
  distinct : (p.added.map ZoneHeader.hash).Nodup
  previous : p.previous =
    (p.added.map ZoneHeader.reference).getLastD (t.anchors.getD p.common ⟨0, zero⟩)

theorem plan_eq_ok {p : Plan} (h : t.plan answers = .ok p) : Decided t p := by
  simp only [plan, eq_ok, not_not] at h
  obtain ⟨⟨tip, newest⟩, -, _, hfound, common, rfl, values, -, hcount, ⟨added, previous⟩, hpage, -,
    -, h⟩ := h
  cases h
  obtain ⟨anchor, hanchor⟩ := findCommon_mem hfound
  rw [mem_reverse] at hanchor
  have hlt : common < t.anchors.length := by
    have := snd_lt_of_mem_zipIdx hanchor
    omega
  have hzip := map_snd_zip (Nat.le_of_eq hcount.symm)
  have hlength := congrArg length hzip
  rw [length_map, length_range'] at hlength
  obtain ⟨hlinked, hhashes, hnodup, hlast⟩ := checkPage_eq_ok (by rw [hzip, hlength]) hpage
  exact ⟨hlt, hlinked, fun header hheader => (hhashes header hheader).1,
    fun header hheader => (hhashes header hheader).2, hnodup, hlast⟩

theorem evict_split (retain : ℕ) (anchors : List BlockReference) :
    ∃ gone, anchors = gone ++ evict retain anchors := by
  induction anchors with
  | nil => exact ⟨[], rfl⟩
  | cons anchor anchors ih =>
    rw [evict]
    split
    · obtain ⟨gone, hgone⟩ := ih
      exact ⟨anchor :: gone, by rw [cons_append, ← hgone]⟩
    · exact ⟨[], rfl⟩

theorem length_evict {retain : ℕ} (hretain : 0 < retain) (hne : anchors ≠ []) :
    evict retain anchors ≠ [] ∧ (evict retain anchors).length ≤ retain := by
  induction anchors with
  | nil => exact absurd rfl hne
  | cons anchor anchors ih =>
    rw [evict]
    split
    · rename_i hlong
      apply ih
      rintro rfl
      rw [length_singleton] at hlong
      omega
    · rename_i hshort
      exact ⟨cons_ne_nil _ _, not_lt.mp hshort⟩

theorem poll_eq_ok {t' : HeadTracker} (h : poll answers t = (.ok update, t')) : ∃ p, Decided t p ∧
      update = ⟨(t.anchors.drop (p.common + 1)).reverse, p.added, p.previous, p.caughtUp⟩ ∧
      t' = { t with anchors := evict t.retain (t.extended p) } := by
  obtain ⟨t₀, s₀, hself, h⟩ := Method.bind_eq_ok.mp h
  obtain ⟨rfl, rfl⟩ := Method.self_eq_ok.mp hself
  obtain ⟨p, hplan, h⟩ := Method.lift_bind_eq_ok.mp h
  refine ⟨p, plan_eq_ok hplan, ?_⟩
  cases h
  exact ⟨rfl, rfl⟩

theorem poll_atomic (answers : PollAnswers) : Method.Atomic (poll answers) := by
  refine .bind .self fun t => .bind (.lift _) fun p => ?_
  intro s e t' h
  cases h

theorem Linked.chain (h : Linked previous added) :
    (previous :: added.map ZoneHeader.reference).IsChain Follows := by
  induction added generalizing previous with
  | nil => exact .singleton previous
  | cons header added ih =>
    obtain ⟨-, hnumber, hrest⟩ := h
    exact .cons_cons hnumber (ih hrest)

theorem Linked.number_pos (h : Linked previous added) : ∀ header ∈ added, header.number ≠ 0 := by
  induction added generalizing previous with
  | nil => simp
  | cons header added ih =>
    intro other hother
    rcases mem_cons.mp hother with rfl | hother
    · intro hzero
      have hnumber := h.2.1
      rw [hzero] at hnumber
      exact absurd hnumber (by simp)
    · exact ih h.2.2 other hother

theorem take_common {common : ℕ} (h : common < anchors.length) (d : BlockReference) :
    anchors.take (common + 1) = anchors.take common ++ [anchors.getD common d] := by
  rw [take_succ_eq_append_getElem h, getD_eq_getElem?_getD, getElem?_eq_getElem h]
  rfl

theorem Anchored.extend {p : Plan} (h : Anchored t.genesis t.anchors) (hp : Decided t p) :
    Anchored t.genesis (t.extended p) := by
  unfold extended
  have hold : Anchored t.genesis (t.anchors.take (p.common + 1)) :=
    h.infix (List.take_prefix _ _).isInfix
  have hhashes : (p.added.map ZoneHeader.reference).map BlockReference.hash =
      p.added.map ZoneHeader.hash := by
    rw [map_map]
    rfl
  constructor
  · have hchain := hold.consecutive
    have hnew := hp.linked.chain
    rw [take_common hp.common ⟨0, zero⟩] at hchain ⊢
    exact List.IsChain.append_overlap hchain hnew (cons_ne_nil _ _)
  · rw [map_append, hhashes, nodup_append]
    refine ⟨hold.distinct, hp.distinct, ?_⟩
    rintro hash hold' other hother rfl
    obtain ⟨header, hheader, rfl⟩ := mem_map.mp hother
    exact hp.fresh header hheader hold'
  · intro a ha
    rcases mem_append.mp ha with ha | ha
    · exact hold.nonzero a ha
    · obtain ⟨header, hheader, rfl⟩ := mem_map.mp ha
      exact hp.nonzero header hheader
  · intro a ha hzero
    rcases mem_append.mp ha with ha | ha
    · exact hold.root a ha hzero
    · obtain ⟨header, hheader, rfl⟩ := mem_map.mp ha
      exact absurd hzero (hp.linked.number_pos header hheader)

theorem Valid.poll {t' : HeadTracker} (h : Valid t) (hpoll : poll answers t = (.ok update, t')) :
    Valid t' := by
  obtain ⟨p, hp, -, rfl⟩ := poll_eq_ok hpoll
  have hextended := h.anchored.extend hp
  obtain ⟨gone, hgone⟩ := evict_split t.retain (t.extended p)
  have hne : t.extended p ≠ [] := by
    rw [extended, take_common hp.common ⟨0, zero⟩]
    simp
  have hretain := h.retain
  obtain ⟨hnonempty, hbounded⟩ := length_evict (show 0 < t.retain by omega) hne
  refine ⟨h.genesis, h.retain, h.pageSize, hnonempty, hbounded, ?_⟩
  exact hextended.infix ⟨gone, [], by rw [append_nil]; exact hgone.symm⟩

/-- A tracker with a consumer of its updates, whose blocks are oldest first. -/
structure Replay where
  tracker : HeadTracker
  stack : List BlockReference

def applyUpdate (stack : List BlockReference) (update : HeadUpdate) : List BlockReference :=
  stack.take (stack.length - update.removed.length) ++ update.added.map ZoneHeader.reference

def Replay.next (r : Replay) (answers : PollAnswers) : Replay :=
  match poll answers r.tracker with
  | (.ok update, t) => ⟨t, applyUpdate r.stack update⟩
  | (.error _, t) => ⟨t, r.stack⟩

/-- What an update does to the blocks of a consumer: the removed ones are its topmost, newest first,
the added ones link to what remains, and the checkpoint is on top of all. -/
structure Applies (stack : List BlockReference) (update : HeadUpdate) : Prop where
  split : ∃ rest top, stack = rest ++ [top] ++ update.removed.reverse ∧
    Linked top update.added ∧ applyUpdate stack update =
      rest ++ [top] ++ update.added.map ZoneHeader.reference
  checkpoint : (applyUpdate stack update).getLast? = some update.checkpoint

/-- The anchors are the top of the consumer's blocks. -/
structure Follower (r : Replay) : Prop where
  valid : Valid r.tracker
  suffix : ∃ older, r.stack = older ++ r.tracker.anchors

theorem getLast?_append_getLastD (front back : List BlockReference) (base : BlockReference) :
    (front ++ [base] ++ back).getLast? = some (back.getLastD base) := by
  rw [getLast?_append, getLastD_eq_getLast?]
  cases back.getLast? with
  | none => simp
  | some => rfl

theorem Follower.applies (h : Follower r) (hpoll : poll answers r.tracker = (.ok update, t)) :
    Applies r.stack update ∧ ∃ older, applyUpdate r.stack update = older ++ t.anchors := by
  obtain ⟨older, hstack⟩ := h.suffix
  obtain ⟨p, hp, hupdate, rfl⟩ := poll_eq_ok hpoll
  have htake := take_common hp.common ⟨0, zero⟩
  have hlinked := hp.linked
  have hprevious := hp.previous
  generalize r.tracker.anchors.getD p.common ⟨0, zero⟩ = base at htake hlinked hprevious
  have hsplit : r.stack = older ++ r.tracker.anchors.take p.common ++ [base] ++
      update.removed.reverse := by
    rw [hstack, hupdate, reverse_reverse, append_assoc older, ← htake, append_assoc,
      take_append_drop]
  have happly : applyUpdate r.stack update = older ++ r.tracker.anchors.take p.common ++ [base] ++
      update.added.map ZoneHeader.reference := by
    unfold applyUpdate
    congr 1
    rw [hsplit, length_append, length_reverse, Nat.add_sub_cancel, take_left]
  rw [hupdate] at hsplit happly ⊢
  refine ⟨⟨⟨_, base, hsplit, hlinked, happly⟩, ?_⟩, ?_⟩
  · rw [happly, getLast?_append_getLastD, hprevious]
  · obtain ⟨gone, hgone⟩ := evict_split r.tracker.retain (r.tracker.extended p)
    refine ⟨older ++ gone, ?_⟩
    rw [happly, append_assoc older gone, ← hgone, extended, htake]
    simp only [append_assoc]

theorem Follower.next (h : Follower r) (answers : PollAnswers) : Follower (r.next answers) := by
  unfold Replay.next
  rcases hpoll : poll answers r.tracker with ⟨e | update, t⟩
  · rw [show t = r.tracker from poll_atomic answers _ _ _ hpoll]
    exact h
  · exact ⟨h.valid.poll hpoll, (h.applies hpoll).2⟩

theorem Follower.run (h : Follower r) (polls : List PollAnswers) :
    Follower (Run.run Replay.next r polls) := by
  induction polls generalizing r with
  | nil => exact h
  | cons answers polls ih => exact ih (h.next answers)

theorem value_toBytes_of_lt {width n : ℕ} (h : n < 256 ^ width) : value (toBytes width n) = n := by
  rw [value_toBytes, Nat.mod_eq_of_lt h]

theorem length_exportAnchor (a : BlockReference) : (exportAnchor a).length = 40 := by
  rw [exportAnchor, length_append, length_toBytes, a.hash.size]

theorem readAnchors_export {previous : Option UInt64} (h : Anchored genesis anchors)
    (hseen : ∀ a ∈ anchors, a.hash ∉ seen)
    (hprevious : ∀ old ∈ previous, ∀ a ∈ anchors.head?, a.number.toNat = old.toNat + 1) :
    readAnchors genesis anchors.length (anchors.flatMap exportAnchor) seen previous =
      .ok anchors := by
  induction anchors generalizing seen previous with
  | nil => rfl
  | cons a anchors ih =>
    have hlength := length_exportAnchor a
    have htake : (exportAnchor a ++ anchors.flatMap exportAnchor).take 40 = exportAnchor a := by
      rw [← hlength, take_left]
    have hdrop : (exportAnchor a ++ anchors.flatMap exportAnchor).drop 40 =
        anchors.flatMap exportAnchor := by
      rw [← hlength, drop_left]
    have hnumber : UInt64.ofNat (value ((exportAnchor a).take 8)) = a.number := by
      rw [exportAnchor, take_left' (length_toBytes 8 _),
        value_toBytes_of_lt a.number.toNat_lt, UInt64.ofNat_toNat]
    have hhash : ofBytes ((exportAnchor a).drop 8) = some a.hash := by
      rw [exportAnchor, drop_left' (length_toBytes 8 _), ofBytes_bytes]
    have hgood : ¬(a.hash = zero ∨ a.hash ∈ seen ∨ (a.number = 0 ∧ a.hash ≠ genesis) ∨
        previous.any (fun old => old.toNat + 1 ≠ a.number.toNat) = true) := by
      rintro (hzero | hmem | ⟨hzero, hroot⟩ | hgap)
      · exact h.nonzero a mem_cons_self hzero
      · exact hseen a mem_cons_self hmem
      · exact hroot (h.root a mem_cons_self hzero)
      · cases previous with
        | none => cases hgap
        | some old => exact of_decide_eq_true hgap (hprevious old rfl a rfl).symm
    have hrest : Anchored genesis anchors := h.infix ⟨[a], [], by simp⟩
    have hdistinct := h.distinct
    rw [map_cons, nodup_cons] at hdistinct
    rw [flatMap_cons, length_cons, readAnchors, htake, hdrop, hhash, hnumber, okOr_some,
      ok_bind, if_neg hgood, ih hrest]
    · rfl
    · intro b hb hmem
      rcases mem_cons.mp hmem with hsame | hmem
      · exact hdistinct.1 (hsame ▸ mem_map_of_mem hb)
      · exact hseen b (mem_cons_of_mem _ hb) hmem
    · rintro old ⟨⟩ b hb
      cases anchors with
      | nil => cases hb
      | cons c others =>
        cases hb
        exact (isChain_cons_cons.mp h.consecutive).1

theorem readAnchors_eq_ok {count : ℕ} {previous : Option UInt64}
    (h : readAnchors genesis count b seen previous = .ok anchors) :
    anchors.length = count ∧ Anchored genesis anchors ∧ (∀ a ∈ anchors, a.hash ∉ seen) ∧
      ∀ old ∈ previous, ∀ a ∈ anchors.head?, a.number.toNat = old.toNat + 1 := by
  induction count generalizing b seen previous anchors with
  | zero =>
    cases h
    exact ⟨rfl, ⟨.nil, nodup_nil, by simp, by simp⟩, by simp, by simp⟩
  | succ count ih =>
    simp only [readAnchors, eq_ok, not_or] at h
    obtain ⟨hash, -, ⟨hzero, hfresh, hroot, hgap⟩, rest, hrest, h⟩ := h
    cases h
    obtain ⟨hlength, hanchored, hseen, hnext⟩ := ih hrest
    refine ⟨by rw [length_cons, hlength], ⟨?_, ?_, ?_, ?_⟩, ?_, ?_⟩
    · apply List.IsChain.cons hanchored.consecutive
      intro c hc
      exact hnext _ rfl c hc
    · rw [map_cons, nodup_cons]
      refine ⟨?_, hanchored.distinct⟩
      intro hmem
      obtain ⟨c, hc, hsame⟩ := mem_map.mp hmem
      exact hseen c hc (hsame ▸ mem_cons_self)
    · exact forall_mem_cons.mpr ⟨hzero, hanchored.nonzero⟩
    · exact forall_mem_cons.mpr
        ⟨fun hnumber => by_contra fun hne => hroot ⟨hnumber, hne⟩, hanchored.root⟩
    · exact forall_mem_cons.mpr ⟨hfresh, fun c hc hmem => hseen c hc (mem_cons_of_mem _ hmem)⟩
    · rintro old ⟨⟩ c ⟨⟩
      by_contra hne
      exact hgap (decide_eq_true (Ne.symm hne))

theorem new_eq_ok {checkpoint : BlockReference} {retain pageSize : ℕ}
    (h : new zone genesis checkpoint retain pageSize = .ok t) :
    t = ⟨zone, genesis, [checkpoint], retain, pageSize⟩ ∧ Valid t := by
  unfold new at h
  rw [ite_error_eq_ok, not_or, not_or, not_or, not_or, not_not, not_not] at h
  obtain ⟨⟨hgenesis, hhash, hroot, hretain, hpageSize⟩, h⟩ := h
  cases h
  refine ⟨rfl, hgenesis, hretain, hpageSize, cons_ne_nil _ _, ?_, ⟨.singleton _, ?_, ?_, ?_⟩⟩
  · show 1 ≤ retain
    omega
  · exact nodup_singleton _
  · intro a ha
    rw [mem_singleton.mp ha]
    exact hhash
  · intro a ha hzero
    rw [mem_singleton.mp ha] at hzero ⊢
    by_contra hne
    exact hroot ⟨hzero, hne⟩

theorem fromState_valid (h : fromState b zone genesis = .ok t) : Valid t := by
  simp only [fromState, eq_ok, not_or] at h
  obtain ⟨-, ⟨-, -, hcount, hretain, -⟩, anchors, hanchors, front, hfront, result, hresult, h⟩ := h
  cases h
  obtain ⟨hlength, hanchored, -, -⟩ := readAnchors_eq_ok hanchors
  obtain ⟨rfl, hvalid⟩ := new_eq_ok hresult
  refine ⟨hvalid.genesis, hvalid.retain, hvalid.pageSize, ?_, ?_, hanchored⟩
  · rintro rfl
    exact hcount hlength.symm
  · rw [hlength]
    exact not_lt.mp hretain

theorem length_flatMap_exportAnchor (anchors : List BlockReference) :
    (anchors.flatMap exportAnchor).length = anchors.length * 40 := by
  simp only [length_flatMap, length_exportAnchor, map_const', sum_replicate]
  rfl

theorem drop_field {field rest : Bytes} {offset width : ℕ} (h : b.drop offset = field ++ rest)
    (hwidth : field.length = width) : b.drop (offset + width) = rest := by
  rw [← drop_drop, h, drop_left' hwidth]

theorem fromState_exportState (h : Valid t) :
    fromState (exportState t) t.zone t.genesis = .ok t := by
  obtain ⟨zone, genesis, anchors, retain, pageSize⟩ := t
  obtain ⟨hgenesis, hretain, hpageSize, hne, hbounded, hanchored⟩ := h
  dsimp only at hgenesis hretain hpageSize hne hbounded hanchored ⊢
  obtain ⟨a, rest, rfl⟩ := exists_cons_of_ne_nil hne
  have hstate : exportState ⟨zone, genesis, a :: rest, retain, pageSize⟩ =
      magic ++ ([zone.byte] ++ (genesis.bytes ++ (toBytes 2 retain ++
        (toBytes 2 pageSize ++ (toBytes 2 (a :: rest).length ++
          (a :: rest).flatMap exportAnchor))))) := by
    simp only [exportState, append_assoc]
  have hbody := length_flatMap_exportAnchor (a :: rest)
  have hread : readAnchors genesis (a :: rest).length ((a :: rest).flatMap exportAnchor) [] none =
      .ok (a :: rest) := readAnchors_export hanchored (by simp) (by simp)
  generalize hflat : (a :: rest).flatMap exportAnchor = body at hstate hbody hread
  have hlength : (exportState ⟨zone, genesis, a :: rest, retain, pageSize⟩).length =
      stateHeader + (a :: rest).length * 40 := by
    rw [hstate]
    simp only [length_append, length_toBytes, genesis.size, hbody]
    show 8 + (1 + (32 + (2 + (2 + (2 + _))))) = 47 + _
    omega
  generalize exportState ⟨zone, genesis, a :: rest, retain, pageSize⟩ = b at hstate hlength
  have hcount : 0 < (a :: rest).length := length_pos_of_ne_nil hne
  generalize (a :: rest).length = count at hstate hbody hread hlength hcount hbounded
  have h2 : ∀ n ≤ 4096, value (toBytes 2 n) = n := fun n hn =>
    value_toBytes_of_lt (by omega)
  -- what is left of the state at the offset of each field
  have hdrop0 : b.drop 0 = _ := hstate
  have hdrop8 := drop_field hdrop0 (show magic.length = 8 from rfl)
  have hdrop9 := drop_field hdrop8 (show [zone.byte].length = 1 from rfl)
  have hdrop41 := drop_field hdrop9 genesis.size
  have hdrop43 := drop_field hdrop41 (length_toBytes 2 retain)
  have hdrop45 := drop_field hdrop43 (length_toBytes 2 pageSize)
  have hdrop47 := drop_field hdrop45 (length_toBytes 2 count)
  norm_num only at hdrop8 hdrop9 hdrop41 hdrop43 hdrop45 hdrop47
  have hmagic : b.take 8 = magic := by rw [hstate, take_left' (by rfl)]
  have hzone : (b.drop 8).head? = some zone.byte := by rw [hdrop8]; rfl
  have hroot : (b.drop 9).take 32 = genesis.bytes := by rw [hdrop9, take_left' genesis.size]
  have hretain' : value ((b.drop 41).take 2) = retain := by
    rw [hdrop41, take_left' (length_toBytes 2 _), h2 _ hretain.2]
  have hpageSize' : value ((b.drop 43).take 2) = pageSize := by
    rw [hdrop43, take_left' (length_toBytes 2 _), h2 _ (by omega)]
  have hcount' : value ((b.drop 45).take 2) = count := by
    rw [hdrop45, take_left' (length_toBytes 2 _), h2 _ (by omega)]
  have hnew : new zone genesis a retain pageSize = .ok ⟨zone, genesis, [a], retain, pageSize⟩ := by
    unfold new
    rw [if_neg]
    rintro (hzero | hzero | ⟨hzero, hother⟩ | hbad | hbad)
    · exact hgenesis hzero
    · exact hanchored.nonzero a mem_cons_self hzero
    · exact hother (hanchored.root a mem_cons_self hzero)
    · exact hbad hretain
    · exact hbad hpageSize
  unfold fromState
  rw [if_neg, hretain', hpageSize', hcount']
  · rw [if_neg, show stateHeader = 47 from rfl, hdrop47, hread, ok_bind, head?_cons, okOr_some,
      ok_bind, hnew]
    · rfl
    · rintro (hbad | hbad | hbad | hbad | hbad) <;> omega
  · rw [hlength, hmagic, hzone, hroot]
    have hmax : maxHeadStateBytes = stateHeader + 40 * 4096 := rfl
    rintro (hbad | hbad | hbad | hbad)
    · omega
    · exact hbad rfl
    · exact hbad rfl
    · exact hbad rfl

inductive Made : HeadTracker → Prop where
  | new {zone : Zone} {genesis : Hash32} {checkpoint : BlockReference} {retain pageSize : ℕ}
      {t : HeadTracker} (h : HeadTracker.new zone genesis checkpoint retain pageSize = .ok t) :
      Made t
  | fromState {b : Bytes} {zone : Zone} {genesis : Hash32} {t : HeadTracker}
      (h : HeadTracker.fromState b zone genesis = .ok t) : Made t

theorem Made.valid (h : Made t) : Valid t := by
  cases h with
  | new h => exact (new_eq_ok h).2
  | fromState h => exact fromState_valid h

/-- Whatever a node answers, the anchors stay a bounded chain, a failed poll changes nothing, every
update applies to a consumer whose blocks end in the anchors at the start (a new tracker's only
anchor is its checkpoint), and a stored state restores the tracker. -/
theorem head_replay {start : HeadTracker} {blocks : List BlockReference} (hstart : Made start)
    (hblocks : start.anchors <:+ blocks) (polls : List PollAnswers) :
    let r := Run.run Replay.next ⟨start, blocks⟩ polls
    (r.tracker.anchors ≠ [] ∧ r.tracker.anchors.length ≤ r.tracker.retain ∧
      Anchored r.tracker.genesis r.tracker.anchors) ∧
    (∀ answers e t, poll answers r.tracker = (.error e, t) → t = r.tracker) ∧
    (∀ answers update t, poll answers r.tracker = (.ok update, t) → Applies r.stack update) ∧
    fromState (exportState r.tracker) r.tracker.zone r.tracker.genesis = .ok r.tracker := by
  intro r
  obtain ⟨older, hblocks⟩ := hblocks
  have hr : Follower r := Follower.run ⟨hstart.valid, older, hblocks.symm⟩ polls
  refine ⟨⟨hr.valid.nonempty, hr.valid.bounded, hr.valid.anchored⟩, ?_, ?_, ?_⟩
  · intro answers e t hpoll
    exact poll_atomic answers _ _ _ hpoll
  · intro answers update t hpoll
    exact (hr.applies hpoll).1
  · exact fromState_exportState hr.valid

def sampleHash (byte : UInt8) : Hash32 := ⟨replicate 32 byte, length_replicate ..⟩

def sampleHeader (hash parent : Char) (number location : String) : Json :=
  let text := fun digit => Json.string (String.ofList ('0' :: 'x' :: replicate 64 digit))
  .object
    [("gasLimit", .string "0x0"), ("stateLimit", .string "0x0"),
      ("woHeader", .object
        [("hash", text hash), ("location", .string location), ("number", .string number),
          ("parentHash", text parent), ("primeTerminusNumber", .string "0x0")])]

/-- A node at height six on block five, which the tracker starts from; `old` is what it has at the
tracker's newest anchor. -/
def sampleAnswers (old tip : Json) : PollAnswers where
  first := fun _ => [.ok (sampleHeader '1' '0' "0x0" "0x"), .ok tip, .ok old]
  anchor := fun _ => .ok (sampleHeader '5' '4' "0x5" "0x0000")
  page := fun _ => [.ok tip]
  ends := fun _ => [.ok (sampleHeader '5' '4' "0x5" "0x0000"), .ok tip]

def sampleTracker : HeadTracker :=
  ⟨.cyprus1, sampleHash 0x11, [⟨5, sampleHash 0x55⟩], 2, 1⟩

def samplePolls : List PollAnswers :=
  [sampleAnswers (sampleHeader '5' '4' "0x5" "0x0000") (sampleHeader '6' '5' "0x6" "0x0000"),
    sampleAnswers (sampleHeader '7' '5' "0x6" "0x0000") (sampleHeader '7' '5' "0x6" "0x0000")]

/-- A replay with a reorganisation. -/
theorem head_replay_reorg :
    (Run.run Replay.next ⟨sampleTracker, sampleTracker.anchors⟩ samplePolls).stack =
      [⟨5, sampleHash 0x55⟩, ⟨6, sampleHash 0x77⟩] ∧
    let r := Run.run Replay.next ⟨sampleTracker, sampleTracker.anchors⟩ samplePolls
    fromState (exportState r.tracker) r.tracker.zone r.tracker.genesis = .ok r.tracker := by
  have hnew : new .cyprus1 (sampleHash 0x11) ⟨5, sampleHash 0x55⟩ 2 1 = .ok sampleTracker := by
    decide +kernel
  refine ⟨by decide +kernel, ?_⟩
  exact (head_replay (.new hnew) (suffix_refl _) samplePolls).2.2.2

end HeadTracker

end QuaiSdk.Provider
