import QuaiSdk.Lib.Reader
import QuaiSdk.Storage.Family
import Mathlib.Data.Prod.Lex

/-!
# Custody framing

`custody_codec.rs` and the parts that the custody journals share: fixed-width fields, flags and
length-prefixed blobs under one size budget.
-/

namespace QuaiSdk

/-! ## Byte order of keys

Arrays of one length compare as the big-endian numbers they spell. -/

instance : LinearOrder Hash32 :=
  LinearOrder.lift' (fun h => BigEndian.value h.bytes) fun a b h =>
    Hash32.ext (BigEndian.eq_of_value_eq (a.size.trans b.size.symm) h)

instance : LinearOrder Address :=
  LinearOrder.lift' (fun a => BigEndian.value a.bytes) fun a b h =>
    Address.ext (BigEndian.eq_of_value_eq (a.size.trans b.size.symm) h)

instance : LinearOrder OutPoint :=
  LinearOrder.lift' (fun o => toLex (o.transactionHash, o.index.toNat)) fun a b h => by
    have hpair := Prod.mk.inj (toLex.injective h)
    cases a
    cases b
    cases hpair.1
    cases UInt16.toNat_inj.mp hpair.2
    rfl

namespace Storage

instance : LinearOrder ReservationId :=
  LinearOrder.lift' (fun i => BigEndian.value i.bytes) fun a b h =>
    ReservationId.ext (BigEndian.eq_of_value_eq (a.size.trans b.size.symm) h)

def NetworkScope.key (s : NetworkScope) : Bytes :=
  s.chainId.toBeBytes ++ s.genesis.bytes ++ [s.zone.byte]

theorem NetworkScope.length_key (s : NetworkScope) : s.key.length = 65 := by
  simp [key, U256.toBeBytes, s.genesis.size]

theorem NetworkScope.key_injective : Function.Injective NetworkScope.key := by
  rintro ⟨chainId, genesis, zone⟩ ⟨chainId', genesis', zone'⟩ h
  obtain ⟨hfront, hzone⟩ := List.append_inj' h rfl
  obtain ⟨hchain, hgenesis⟩ := List.append_inj hfront (by simp [U256.toBeBytes])
  have hchain' : chainId = chainId' := by
    have hvalue := congrArg BigEndian.value hchain
    rw [value_toBeBytes, value_toBeBytes] at hvalue
    cases chainId
    cases chainId'
    cases hvalue
    rfl
  have hgenesis' : genesis = genesis' := Hash32.ext hgenesis
  have hzone' : zone = zone' := Zone.byte_injective (List.singleton_inj.mp hzone)
  rw [hchain', hgenesis', hzone']

namespace ReservationState

def byte : ReservationState → UInt8
  | reserved => 0
  | signed => 1
  | submitted => 2
  | confirmed => 3
  | released => 4

def fromByte (b : UInt8) : Except StorageError ReservationState :=
  if b = 0 then .ok reserved
  else if b = 1 then .ok signed
  else if b = 2 then .ok submitted
  else if b = 3 then .ok confirmed
  else if b = 4 then .ok released
  else .error .invalid

@[simp] theorem fromByte_byte (s : ReservationState) : fromByte s.byte = .ok s := by
  cases s <;> rfl

theorem byte_of_fromByte {b : UInt8} {s : ReservationState} (h : fromByte b = .ok s) :
    s.byte = b := by
  unfold fromByte at h
  repeat' split at h
  all_goals first | cases h; done | (rename_i hb; cases h; rw [hb]; rfl)

end ReservationState

namespace ReservationId

/-- `<[u8; 16]>::try_from`. -/
def ofBytes (b : Bytes) : Option ReservationId :=
  if h : b.length = 16 then some ⟨b, h⟩ else none

@[simp] theorem ofBytes_bytes (i : ReservationId) : ofBytes i.bytes = some i := by
  simp [ofBytes, i.size]

theorem bytes_of_ofBytes {b : Bytes} {i : ReservationId} (h : ofBytes b = some i) : i.bytes = b := by
  unfold ofBytes at h
  split at h
  · rw [← Option.some.inj h]
  · cases h

end ReservationId

end Storage

namespace Books

open Result Wallet Storage List BigEndian

structure Block where
  hash : Hash32
  height : U256
  deriving DecidableEq

def maxCustodyBytes : ℕ := 16 * 1024 * 1024

namespace Writer

def put (bytes : Bytes) (out : Bytes) : Except StorageError Bytes :=
  if maxCustodyBytes - out.length < bytes.length then .error .invalid else .ok (out ++ bytes)

def blob (bytes : Bytes) (out : Bytes) : Except StorageError Bytes :=
  if maxTransactionBytes < bytes.length then .error .invalid
  else do
    let out ← put (toBytes 4 bytes.length) out
    put bytes out

inductive Call where
  | put (bytes : Bytes)
  | blob (bytes : Bytes)

namespace Call

def run (out : Bytes) : Call → Except StorageError Bytes
  | put bytes => Writer.put bytes out
  | blob bytes => Writer.blob bytes out

def bytes : Call → Bytes
  | put b => b
  | blob b => toBytes 4 b.length ++ b

def Fits : Call → Prop
  | put _ => True
  | blob b => b.length ≤ maxTransactionBytes

end Call

/-- The calls in order, each with its `?`. -/
def write (calls : List Call) : Except StorageError Bytes := calls.foldlM Call.run []

theorem put_eq_ok {b out res : Bytes} (h : out.length ≤ maxCustodyBytes) :
    put b out = .ok res ↔ out.length + b.length ≤ maxCustodyBytes ∧ res = out ++ b := by
  rw [put, ite_error_eq_ok, Except.ok.injEq, eq_comm, not_lt]
  exact and_congr_left fun _ => by omega

theorem run_eq_ok {call : Call} {out res : Bytes} (h : out.length ≤ maxCustodyBytes) :
    call.run out = .ok res ↔
      call.Fits ∧ out.length + call.bytes.length ≤ maxCustodyBytes ∧ res = out ++ call.bytes := by
  cases call with
  | put =>
    rw [Call.run, put_eq_ok h]
    simp only [Call.Fits, Call.bytes, true_and]
  | blob =>
    rw [Call.run, blob, ite_error_eq_ok, not_lt]
    apply and_congr_right
    intro _
    rw [bind_eq_ok, Call.bytes, length_append]
    constructor
    · rintro ⟨middle, hlength, hb⟩
      obtain ⟨hle, rfl⟩ := (put_eq_ok h).mp hlength
      obtain ⟨hle', rfl⟩ := (put_eq_ok (by rwa [length_append])).mp hb
      rw [length_append] at hle'
      exact ⟨by omega, append_assoc _ _ _⟩
    · rintro ⟨hle, rfl⟩
      refine ⟨_, (put_eq_ok h).mpr ⟨by omega, rfl⟩, ?_⟩
      rw [put_eq_ok (by rw [length_append]; omega), length_append]
      exact ⟨by omega, (append_assoc _ _ _).symm⟩

theorem write_eq_ok {calls : List Call} {b : Bytes} :
    write calls = .ok b ↔ (∀ c ∈ calls, c.Fits) ∧ b.length ≤ maxCustodyBytes ∧
      b = calls.flatMap Call.bytes := by
  have hfold : ∀ (l : List Call) (out : Bytes), out.length ≤ maxCustodyBytes →
      (l.foldlM Call.run out = .ok b ↔ (∀ c ∈ l, c.Fits) ∧ b.length ≤ maxCustodyBytes ∧
        b = out ++ l.flatMap Call.bytes) := by
    intro l
    induction l with
    | nil =>
      intro out hout
      rw [foldlM_nil, pure_eq_ok, Except.ok.injEq, flatMap_nil, append_nil]
      constructor
      · rintro rfl
        exact ⟨by simp, hout, rfl⟩
      · rintro ⟨-, -, rfl⟩
        rfl
    | cons c l ih =>
      intro out hout
      rw [foldlM_cons, bind_eq_ok, flatMap_cons, ← append_assoc, forall_mem_cons]
      constructor
      · rintro ⟨middle, hcall, hrest⟩
        obtain ⟨hfits, hle, rfl⟩ := (run_eq_ok hout).mp hcall
        obtain ⟨hall, hlength, hb⟩ := (ih _ (by rwa [length_append])).mp hrest
        exact ⟨⟨hfits, hall⟩, hlength, hb⟩
      · rintro ⟨⟨hfits, hall⟩, hlength, rfl⟩
        rw [length_append, length_append] at hlength
        have hle : out.length + c.bytes.length ≤ maxCustodyBytes := by omega
        refine ⟨_, (run_eq_ok hout).mpr ⟨hfits, hle, rfl⟩, ?_⟩
        rw [ih _ (by rwa [length_append]), length_append, length_append]
        exact ⟨hall, hlength, rfl⟩
  exact hfold calls [] (by decide)

theorem flatMap_bytes {α : Type} (calls : α → List Call) (encode : α → Bytes) (bounded : α → Prop)
    (h : ∀ a, (calls a).flatMap Call.bytes = encode a ∧ ((∀ c ∈ calls a, c.Fits) ↔ bounded a))
    (l : List α) : (l.flatMap calls).flatMap Call.bytes = l.flatMap encode ∧
      ((∀ c ∈ l.flatMap calls, c.Fits) ↔ ∀ a ∈ l, bounded a) := by
  constructor
  · rw [flatMap_assoc, funext fun a => (h a).1]
  · simp only [mem_flatMap, ← (h _).2]
    exact ⟨fun h a ha c hc => h c ⟨a, ha, hc⟩, fun h c ⟨a, ha, hc⟩ => h a ha c hc⟩

end Writer

/-! The fields that both custody journals write. -/

/-- The byte of a flag, `u8::from`. -/
def flagByte (b : Bool) : UInt8 := if b = true then 1 else 0

open Writer in
def transactionCalls (transaction : Option Hash32) : List Call :=
  .put [flagByte transaction.isSome] :: match transaction with
    | none => []
    | some hash => [.put hash.bytes]

open Writer in
def inclusionCalls (inclusion : Option (Hash32 × Block)) : List Call :=
  .put [flagByte inclusion.isSome] :: match inclusion with
    | none => []
    | some (hash, block) => [.put hash.bytes, .put block.hash.bytes, .put block.height.toBeBytes]

open Writer in
def payloadCalls (payload : Option Bytes) : List Call := [.blob (payload.getD [])]

open Writer in
def edgesCalls (edges : List QuaiReplacement) : List Call :=
  .put (toBytes 1 edges.length) ::
    edges.flatMap fun edge => [.put edge.parent.bytes, .blob edge.payload]

def readByte : Reader StorageError UInt8 := do
  let bytes ← Reader.take .invalid 1
  pure (bytes.headD 0)

def flagOfByte (byte : UInt8) : Except StorageError Bool :=
  if byte = 0 then .ok false else if byte = 1 then .ok true else .error .invalid

def readFlag : Reader StorageError Bool := do
  let byte ← readByte
  Reader.lift (flagOfByte byte)

def readBlob : Reader StorageError Bytes := do
  let n ← Reader.number .invalid 4
  if maxTransactionBytes < n then Reader.fail .invalid
  else Reader.take .invalid n

def readHash : Reader StorageError Hash32 := do
  let bytes ← Reader.take .invalid 32
  Reader.lift (okOr (Hash32.ofBytes bytes) .invalid)

def readId : Reader StorageError ReservationId := do
  let bytes ← Reader.take .invalid 16
  Reader.lift (okOr (ReservationId.ofBytes bytes) .invalid)

def readWord : Reader StorageError U256 := do
  let n ← Reader.number .invalid 32
  pure (U256.ofNat n)

def readBlock : Reader StorageError Block := do
  let hash ← readHash
  let height ← readWord
  pure ⟨hash, height⟩

def readState : Reader StorageError ReservationState := do
  let byte ← readByte
  Reader.lift (ReservationState.fromByte byte)

def readInclusion : Reader StorageError (Hash32 × Block) := do
  let hash ← readHash
  let block ← readBlock
  pure (hash, block)

def readEdge : Reader StorageError QuaiReplacement := do
  let parent ← readHash
  let payload ← readBlob
  pure ⟨parent, payload⟩

def readEdges : Reader StorageError (List QuaiReplacement) := do
  let count ← readByte
  if 32 < count then Reader.fail .invalid
  else Reader.repeated readEdge count.toNat

/-- An empty blob stands for an absent payload. -/
def readPayload : Reader StorageError (Option Bytes) := do
  let payload ← readBlob
  pure (if payload = [] then none else some payload)

open Reader

theorem readByte_reads : Reads readByte (fun _ => True) fun b => [b] := by
  refine (Reads.map (fun b => [b]) (Reads.take _ 1) ?_).congr ?_ fun b _ => rfl
  · intro b hb
    obtain ⟨x, rfl⟩ := length_eq_one_iff.mp hb
    rfl
  · intro b
    simp

theorem readFlag_reads : Reads readFlag (fun _ => True) fun b => [flagByte b] := by
  refine (Reads.parse flagByte readByte_reads ?_).congr ?_ fun b _ => rfl
  · intro byte b h
    unfold flagOfByte at h
    split at h
    · rename_i hbyte
      cases h
      exact hbyte.symm
    · split at h
      · rename_i hbyte
        cases h
        exact hbyte.symm
      · cases h
  · intro b
    cases b <;> simp [flagByte, flagOfByte]

theorem readBlob_reads : Reads readBlob (fun b => b.length ≤ maxTransactionBytes) fun b =>
    toBytes 4 b.length ++ b := by
  refine (Reads.counted (by decide) fun n _ => (Reads.take _ n).congr (fun _ => ?_)
    fun _ _ => rfl).congr (fun _ => and_iff_left trivial) fun _ _ => rfl
  exact (and_iff_left trivial).symm

theorem readHash_reads : Reads readHash (fun _ => True) Hash32.bytes := by
  refine (Reads.parse Hash32.bytes (Reads.take _ 32) ?_).congr ?_ fun h _ => rfl
  · intro b h hb
    exact Hash32.bytes_of_ofBytes (okOr_eq_ok.mp hb)
  · intro h
    simp [h.size]

theorem readId_reads : Reads readId (fun _ => True) ReservationId.bytes := by
  refine (Reads.parse ReservationId.bytes (Reads.take _ 16) ?_).congr ?_ fun h _ => rfl
  · intro b i hb
    exact ReservationId.bytes_of_ofBytes (okOr_eq_ok.mp hb)
  · intro i
    simp [i.size]

theorem readWord_reads : Reads readWord (fun _ => True) U256.toBeBytes := by
  refine Reads.numberOf U256.toNat U256.ofNat (fun n hn => Nat.mod_eq_of_lt hn) fun n => ⟨n.isLt, ?_⟩
  cases n with
  | mk n isLt =>
    rw [U256.ofNat, U256.mk.injEq]
    exact Nat.mod_eq_of_lt isLt

def Block.bytes (b : Block) : Bytes := b.hash.bytes ++ b.height.toBeBytes

theorem readBlock_reads : Reads readBlock (fun _ => True) Block.bytes := by
  refine (Reads.bind Block.hash readHash_reads (fun hash _ =>
    Reads.map Block.height readWord_reads fun _ _ => rfl) ?_).congr ?_ fun b _ => rfl
  · rintro hash b - ⟨-, hb⟩
    rw [← hb]
  · intro b
    simp

theorem readState_reads : Reads readState (fun _ => True) fun s => [s.byte] := by
  refine (Reads.parse ReservationState.byte readByte_reads
    fun b s h => ReservationState.byte_of_fromByte h).congr ?_ fun s _ => rfl
  intro s
  simp

def inclusionBytes (i : Hash32 × Block) : Bytes := i.1.bytes ++ i.2.bytes

theorem readInclusion_reads : Reads readInclusion (fun _ => True) inclusionBytes := by
  refine (Reads.bind Prod.fst readHash_reads (fun hash _ =>
    Reads.map Prod.snd readBlock_reads fun _ _ => rfl) ?_).congr ?_ fun b _ => rfl
  · rintro hash i - ⟨-, hi⟩
    rw [← hi]
  · intro i
    simp

def edgeBytes (edge : QuaiReplacement) : Bytes :=
  edge.parent.bytes ++ (toBytes 4 edge.payload.length ++ edge.payload)

theorem readEdge_reads : Reads readEdge (fun edge => edge.payload.length ≤ maxTransactionBytes)
    edgeBytes := by
  refine (Reads.bind QuaiReplacement.parent readHash_reads (fun parent _ =>
    Reads.map QuaiReplacement.payload readBlob_reads fun _ _ => rfl) ?_).congr ?_ fun b _ => rfl
  · rintro parent edge - ⟨-, hedge⟩
    rw [← hedge]
  · intro edge
    simp

def edgesBytes (edges : List QuaiReplacement) : Bytes :=
  toBytes 1 edges.length ++ edges.flatMap edgeBytes

theorem readEdges_reads : Reads readEdges
    (fun edges => edges.length ≤ 32 ∧ ∀ e ∈ edges, e.payload.length ≤ maxTransactionBytes)
    edgesBytes := by
  refine (Reads.bind (fun edges => UInt8.ofNat edges.length) readByte_reads (fun count _ =>
    .guard fun _ => readEdge_reads.repeated count.toNat) ?_).congr ?_ ?_
  · rintro count edges - ⟨-, hlength, -⟩
    rw [hlength, UInt8.ofNat_toNat]
  · intro edges
    constructor
    · rintro ⟨-, hcount, hlength, hall⟩
      refine ⟨?_, hall⟩
      rw [hlength]
      exact UInt8.le_iff_toNat_le.mp (UInt8.not_lt.mp hcount)
    · rintro ⟨hlength, hall⟩
      have hsmall : edges.length % 256 = edges.length := Nat.mod_eq_of_lt (by omega)
      refine ⟨trivial, ?_, ?_, hall⟩
      · rw [UInt8.not_lt, UInt8.le_iff_toNat_le, UInt8.toNat_ofNat', hsmall]
        exact hlength
      · rw [UInt8.toNat_ofNat', hsmall]
  · intro edges _
    simp [edgesBytes, toBytes]

def payloadBytes (payload : Option Bytes) : Bytes :=
  toBytes 4 (payload.getD []).length ++ payload.getD []

theorem readPayload_reads : Reads readPayload
    (fun payload => payload ≠ some [] ∧ ∀ b ∈ payload, b.length ≤ maxTransactionBytes)
    payloadBytes := by
  refine (Reads.map (fun payload => payload.getD []) readBlob_reads ?_).congr ?_ fun b _ => rfl
  · intro b _
    by_cases hb : b = [] <;> simp [hb]
  · intro payload
    cases payload with
    | none => simp
    | some b => by_cases hb : b = [] <;> simp [hb]

open Writer

def hashBytes (transaction : Option Hash32) : Bytes :=
  [flagByte transaction.isSome] ++ (transaction.map Hash32.bytes).getD []

def includedBytes (inclusion : Option (Hash32 × Block)) : Bytes :=
  [flagByte inclusion.isSome] ++ (inclusion.map inclusionBytes).getD []

theorem transactionCalls_bytes (t : Option Hash32) :
    (transactionCalls t).flatMap Call.bytes = hashBytes t ∧ ∀ c ∈ transactionCalls t, c.Fits := by
  cases t <;> simp [transactionCalls, hashBytes, Call.bytes, Call.Fits]

theorem inclusionCalls_bytes (i : Option (Hash32 × Block)) :
    (inclusionCalls i).flatMap Call.bytes = includedBytes i ∧ ∀ c ∈ inclusionCalls i, c.Fits := by
  cases i <;> simp [inclusionCalls, includedBytes, inclusionBytes, Block.bytes, Call.bytes, Call.Fits]

theorem payloadCalls_bytes (p : Option Bytes) :
    (payloadCalls p).flatMap Call.bytes = payloadBytes p ∧
      ((∀ c ∈ payloadCalls p, c.Fits) ↔ ∀ b ∈ p, b.length ≤ maxTransactionBytes) := by
  cases p <;> simp [payloadCalls, payloadBytes, Call.bytes, Call.Fits]

theorem edgesCalls_bytes (edges : List QuaiReplacement) :
    (edgesCalls edges).flatMap Call.bytes = edgesBytes edges ∧
      ((∀ c ∈ edgesCalls edges, c.Fits) ↔ ∀ e ∈ edges, e.payload.length ≤ maxTransactionBytes) := by
  obtain ⟨hbytes, hfits⟩ := flatMap_bytes (fun edge : QuaiReplacement =>
    [.put edge.parent.bytes, .blob edge.payload]) edgeBytes
    (fun edge => edge.payload.length ≤ maxTransactionBytes)
    (fun edge => by simp [edgeBytes, Call.bytes, Call.Fits]) edges
  rw [edgesCalls, flatMap_cons, hbytes, forall_mem_cons, hfits]
  exact ⟨rfl, and_iff_right trivial⟩

theorem length_includedBytes_le {i j : Option (Hash32 × Block)} (h : j = i ∨ j = none) :
    (includedBytes j).length ≤ (includedBytes i).length := by
  rcases h with rfl | rfl
  · exact le_rfl
  · rw [includedBytes, includedBytes, length_append, length_append]
    exact Nat.le_add_right 1 _

theorem header_inj {magic name name' rest rest' extra : Bytes} {scope scope' : NetworkScope}
    (hname : name.length = name'.length) (h : magic ++ (scope.key ++ (name ++ rest)) ++ extra =
      magic ++ (scope'.key ++ (name' ++ rest'))) : scope = scope' ∧ name = name' := by
  simp only [append_assoc] at h
  obtain ⟨hkey, h⟩ := append_inj (append_cancel_left h) (by simp only [NetworkScope.length_key])
  exact ⟨NetworkScope.key_injective hkey, (append_inj h hname).1⟩

end Books

end QuaiSdk
