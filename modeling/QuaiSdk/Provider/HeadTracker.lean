import QuaiSdk.Lib.Method
import QuaiSdk.Provider.ZoneHeader

/-!
# Head replay

`head_tracker.rs`: a cursor over the last blocks of a zone.  A poll finds the newest retained block
that is still on the node's chain, validates a page of headers on top of it and rechecks both ends.
The node's answers to the reads of a poll are arbitrary, and no two of them need to agree.
-/

namespace QuaiSdk.Provider

open Result BigEndian
open Method (self lift assign)

structure BlockReference where
  number : UInt64
  hash : Hash32
  deriving DecidableEq

def ZoneHeader.reference (h : ZoneHeader) : BlockReference := ⟨h.number, h.hash⟩

structure HeadUpdate where
  removed : List BlockReference
  added : List ZoneHeader
  checkpoint : BlockReference
  caughtUp : Bool

/-- Anchors are oldest first. -/
structure HeadTracker where
  zone : Zone
  genesis : Hash32
  anchors : List BlockReference
  retain : ℕ
  pageSize : ℕ
  deriving DecidableEq

/-- A node's answers to the reads of one poll: the first batch, an older anchor by its index, the
page and the recheck of its ends. -/
structure PollAnswers where
  first : ℕ → PageAnswer
  anchor : ℕ → Except ProviderError Json
  page : ℕ → PageAnswer
  ends : ℕ → PageAnswer

namespace HeadTracker

def new (zone : Zone) (genesis : Hash32) (checkpoint : BlockReference) (retain pageSize : ℕ) :
    Except ProviderError HeadTracker :=
  if genesis = Hash32.zero ∨ checkpoint.hash = Hash32.zero ∨
      (checkpoint.number = 0 ∧ checkpoint.hash ≠ genesis) ∨ ¬(2 ≤ retain ∧ retain ≤ 4096) ∨
      ¬(1 ≤ pageSize ∧ pageSize ≤ 256) then
    .error (.invalidRequest "head replay bounds or identity")
  else .ok ⟨zone, genesis, [checkpoint], retain, pageSize⟩

def checkpoint (t : HeadTracker) : BlockReference := t.anchors.getLastD ⟨0, Hash32.zero⟩

/-- The genesis, which decides before a later read's error does, and then the tip with the raw
response for the newest anchor. -/
def readFirst (t : HeadTracker) (answers : PollAnswers) :
    Except ProviderError (ZoneHeader × Json) :=
  match headerValues answers.first
    [.number 0, .latest, .number t.checkpoint.number.toNat] with
  | [] => .error (.invalidResult "header batch count")
  | genesis :: rest => do
    let genesis ← genesis
    let genesis ← genesisHashOf genesis
    if genesis ≠ t.genesis then .error .genesisMismatch
    else do
      let rest ← collect rest
      match rest with
      | [tip, newest] => do
        let tip ← parseZoneHeader tip t.zone .latest
        let tip ← okOr tip .replayHistoryUnavailable
        .ok (tip, newest)
      | _ => .error (.invalidResult "header batch count")

def numberedHash (t : HeadTracker) (value : Json) (number : ℕ) : Except ProviderError Hash32 := do
  let header ← parseZoneHeader value t.zone (.number number)
  let header ← okOr header .replayHistoryUnavailable
  .ok header.hash

/-- What the node has at an anchor's height; the genesis is trusted, the newest anchor was read. -/
def anchorHash (t : HeadTracker) (answers : PollAnswers) (newest : Json) (anchor : BlockReference)
    (index : ℕ) : Except ProviderError Hash32 :=
  if anchor.number = 0 then .ok t.genesis
  else if anchor = t.checkpoint then t.numberedHash newest anchor.number.toNat
  else if (BlockTag.number anchor.number.toNat).OutOfRange then .error .blockNumberOutOfRange
  else do
    let value ← answers.anchor index
    t.numberedHash value anchor.number.toNat

/-- The newest anchor still on the chain, among anchors with their indexes, newest first. -/
def findCommon (t : HeadTracker) (answers : PollAnswers) (tip : ZoneHeader) (newest : Json) :
    List (BlockReference × ℕ) → Except ProviderError (Option ℕ)
  | [] => .ok none
  | (anchor, index) :: rest =>
    if tip.number < anchor.number then t.findCommon answers tip newest rest
    else do
      let actual ← t.anchorHash answers newest anchor index
      if actual = anchor.hash then .ok (some index) else t.findCommon answers tip newest rest

/-- The page in order, so that the first broken link is the error reported: the headers that link up,
and the last of them.  Block one on a genesis base may be history that the node lacks. -/
def checkPage (zone : Zone) (fromGenesis : Bool) :
    List (Json × ℕ) → BlockReference → List Hash32 →
      Except ProviderError (List ZoneHeader × BlockReference)
  | [], previous, _ => .ok ([], previous)
  | (value, number) :: rest, previous, seen => do
    let header ← parseZoneHeader value zone (.number number)
    let header ← okOr header
      (if fromGenesis = true ∧ number = 1 then .replayHistoryUnavailable else .observationChanged)
    if header.parentHash ≠ previous.hash ∨ header.hash = Hash32.zero ∨ header.hash ∈ seen then
      .error .observationChanged
    else do
      let (added, last) ← checkPage zone fromGenesis rest header.reference (header.hash :: seen)
      .ok (header :: added, last)

def endHash (t : HeadTracker) (anchor : BlockReference) (value : Json) :
    Except ProviderError (Option Hash32) :=
  if anchor.number = 0 then (genesisHashOf value).map some
  else do
    let header ← parseZoneHeader value t.zone (.number anchor.number.toNat)
    .ok (header.map ZoneHeader.hash)

def checkEnd (t : HeadTracker) (anchor : BlockReference) (value : Json) :
    Except ProviderError Unit := do
  let hash ← t.endHash anchor value
  if hash ≠ some anchor.hash then .error .observationChanged else .ok ()

/-- Both ends after the page; without a page nothing is committed and nothing is read. -/
def checkEnds (t : HeadTracker) (answers : PollAnswers) (added : List ZoneHeader)
    (base previous : BlockReference) : Except ProviderError Unit :=
  if added.isEmpty = true then .ok ()
  else do
    let values ← collect
      (headerValues answers.ends [.number base.number.toNat, .number previous.number.toNat])
    match values with
    | [first, second] => do
      t.checkEnd base first
      t.checkEnd previous second
    | _ => .error (.invalidResult "header batch count")

/-- What a poll decides before it changes anything: the index of the common anchor, the headers to
add, the last applied block and whether the page reached the tip. -/
structure Plan where
  common : ℕ
  added : List ZoneHeader
  previous : BlockReference
  caughtUp : Bool

def plan (t : HeadTracker) (answers : PollAnswers) : Except ProviderError Plan := do
  let (tip, newest) ← t.readFirst answers
  let common ← t.findCommon answers tip newest t.anchors.zipIdx.reverse
  let common ← okOr common .replayHistoryUnavailable
  let base := t.anchors.getD common ⟨0, Hash32.zero⟩
  let last := min (base.number.toNat + t.pageSize) tip.number.toNat
  let numbers := List.range' (base.number.toNat + 1) (last - base.number.toNat)
  let values ← collect (headerValues answers.page (numbers.map .number))
  if values.length ≠ numbers.length then .error (.invalidResult "header batch count")
  else do
    let (added, previous) ← checkPage t.zone (base.number = 0) (values.zip numbers) base
      ((t.anchors.take (common + 1)).map BlockReference.hash)
    t.checkEnds answers added base previous
    .ok ⟨common, added, previous, last = tip.number.toNat⟩

/-- `while self.anchors.len() > self.retain { pop_front }`. -/
def evict (retain : ℕ) : List BlockReference → List BlockReference
  | [] => []
  | anchor :: anchors =>
    if retain < (anchor :: anchors).length then evict retain anchors else anchor :: anchors

/-- Everything is read and validated before the anchors change. -/
def poll (answers : PollAnswers) : Method ProviderError HeadTracker HeadUpdate := do
  let t ← self
  let p ← lift (t.plan answers)
  let removed := (t.anchors.drop (p.common + 1)).reverse
  assign { t with anchors := t.anchors.take (p.common + 1) }
  let t ← self
  assign { t with anchors := t.anchors ++ p.added.map ZoneHeader.reference }
  let t ← self
  assign { t with anchors := evict t.retain t.anchors }
  pure ⟨removed, p.added, p.previous, p.caughtUp⟩

/-- `QHEAD001`. -/
def magic : Bytes := [0x51, 0x48, 0x45, 0x41, 0x44, 0x30, 0x30, 0x31]

def stateHeader : ℕ := 47

def maxHeadStateBytes : ℕ := stateHeader + 40 * 4096

def exportAnchor (anchor : BlockReference) : Bytes :=
  toBytes 8 anchor.number.toNat ++ anchor.hash.bytes

def exportState (t : HeadTracker) : Bytes :=
  magic ++ [t.zone.byte] ++ t.genesis.bytes ++ toBytes 2 t.retain ++
    toBytes 2 t.pageSize ++ toBytes 2 t.anchors.length ++
    t.anchors.flatMap exportAnchor

def invalidState : ProviderError := .invalidRequest "invalid head replay state"

def readAnchors (genesis : Hash32) :
    ℕ → Bytes → List Hash32 → Option UInt64 → Except ProviderError (List BlockReference)
  | 0, _, _, _ => .ok []
  | count + 1, b, seen, previous => do
    let number := UInt64.ofNat (value ((b.take 40).take 8))
    let hash ← okOr (Hash32.ofBytes ((b.take 40).drop 8)) invalidState
    if hash = Hash32.zero ∨ hash ∈ seen ∨ (number = 0 ∧ hash ≠ genesis) ∨
        previous.any (fun old => old.toNat + 1 ≠ number.toNat) = true then
      .error invalidState
    else do
      let rest ← readAnchors genesis count (b.drop 40) (hash :: seen) (some number)
      .ok (⟨number, hash⟩ :: rest)

def fromState (b : Bytes) (zone : Zone) (genesis : Hash32) : Except ProviderError HeadTracker :=
  if ¬(stateHeader + 40 ≤ b.length ∧ b.length ≤ maxHeadStateBytes) ∨ b.take 8 ≠ magic ∨
      (b.drop 8).head? ≠ some zone.byte ∨ (b.drop 9).take 32 ≠ genesis.bytes then
    .error invalidState
  else
    let retain := value ((b.drop 41).take 2)
    let pageSize := value ((b.drop 43).take 2)
    let count := value ((b.drop 45).take 2)
    if ¬(2 ≤ retain ∧ retain ≤ 4096) ∨ ¬(1 ≤ pageSize ∧ pageSize ≤ 256) ∨ count = 0 ∨
        retain < count ∨ b.length ≠ stateHeader + count * 40 then
      .error invalidState
    else do
      let anchors ← readAnchors genesis count (b.drop stateHeader) [] none
      let front ← okOr anchors.head? invalidState
      let result ← new zone genesis front retain pageSize
      .ok { result with anchors }

end HeadTracker

end QuaiSdk.Provider
