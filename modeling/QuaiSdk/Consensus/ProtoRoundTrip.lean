import QuaiSdk.Consensus.Proto

/-!
# Raw messages round-trip

Each message type restores itself from the fields it writes, bottom up from `Hash` to `Transaction`.
-/

namespace QuaiSdk.Proto

open Wire List

variable {v : Value} {α : Type} {x : Option α}

theorem plain_u32 {x : Option UInt32} (hv : v ∈ x.map u32) : v.Plain := by
  obtain ⟨n, -, rfl⟩ := Option.mem_map.mp hv
  exact lt_trans n.toNat_lt (by decide)

theorem plain_u64 {x : Option UInt64} (hv : v ∈ x.map u64) : v.Plain := by
  obtain ⟨n, -, rfl⟩ := Option.mem_map.mp hv
  exact n.toNat_lt

theorem plain_bytes {enc : α → Bytes} (hv : v ∈ x.map fun a => .bytes (enc a)) : v.Plain := by
  obtain ⟨a, -, rfl⟩ := Option.mem_map.mp hv
  trivial

private theorem mem_optional {tag : ℕ} {enc : α → Bytes} {a : α} (h : x = some a) :
    ⟨tag, .bytes (enc a)⟩ ∈ optional tag (x.map fun a => .bytes (enc a)) := by
  subst h
  exact mem_singleton_self _

section

variable {merge : α → Field → Option α} {a r : α} {tag : ℕ} {groups : List (List Field)}

private theorem foldlM_u32 (put : Option UInt32 → α) (x : Option UInt32) (hnone : put none = a)
    (hmerge : ∀ n, merge a ⟨tag, .varint n⟩ = some (put (some (UInt32.ofNat n))))
    (hrest : groups.flatten.foldlM merge (put x) = some r) :
    (optional tag (x.map u32) :: groups).flatten.foldlM merge a = some r :=
  foldlM_optional_cons put x hnone (fun n _ => by rw [u32, hmerge, UInt32.ofNat_toNat]) hrest

private theorem foldlM_u64 (put : Option UInt64 → α) (x : Option UInt64) (hnone : put none = a)
    (hmerge : ∀ n, merge a ⟨tag, .varint n⟩ = some (put (some (UInt64.ofNat n))))
    (hrest : groups.flatten.foldlM merge (put x) = some r) :
    (optional tag (x.map u64) :: groups).flatten.foldlM merge a = some r :=
  foldlM_optional_cons put x hnone (fun n _ => by rw [u64, hmerge, UInt64.ofNat_toNat]) hrest

end

theorem hash_roundTrips : hash.RoundTrips where
  plain _ _ hf := plain_implicitBytes (by decide) (by decide) hf
  restore h _ := foldlM_implicitBytes Hash.mk h.value rfl rfl

theorem accessTuple_roundTrips : accessTuple.RoundTrips where
  plain a f hf := by
    simp only [accessTuple, flatten_cons, flatten_nil, append_nil, mem_append] at hf
    rcases hf with hf | hf
    · exact plain_implicitBytes (by decide) (by decide) hf
    · exact plain_repeated (by decide) (by decide) hf
  restore a hlen := by
    have hkeys : ∀ done key, key ∈ a.storageKey →
        accessTuple.merge ⟨a.address, done⟩ ⟨2, .bytes (hash.encode key)⟩ =
          some ⟨a.address, done ++ [key]⟩ := by
      intro done key hkey
      have hpart : (hash.encode key).length < 2 ^ 64 := part_lt 2 hlen (by
        simp only [accessTuple, flatten_cons, mem_append]
        exact .inr (.inl (mem_map_of_mem hkey)))
      change (hash.decode (hash.encode key)).map _ = _
      rw [hash_roundTrips.decode_encode hpart]
      rfl
    refine foldlM_flatten_cons ⟨a.address, []⟩
      (foldlM_implicitBytes (AccessTuple.mk · []) a.address rfl rfl) ?_
    refine foldlM_flatten_cons a ?_ rfl
    exact foldlM_repeated (AccessTuple.mk a.address) a.storageKey hkeys []

theorem accessList_roundTrips : accessList.RoundTrips :=
  accessTuple_roundTrips.repeated AccessList.mk (·.accessTuples) (by decide) (by decide) (fun _ => rfl)
    (fun _ => rfl) rfl (fun _ _ => rfl)

theorem outPoint_roundTrips : outPoint.RoundTrips where
  plain o f hf := by
    simp only [outPoint, flatten_cons, flatten_nil, append_nil, mem_append] at hf
    rcases hf with hf | hf
    · exact plain_optional (by decide) (by decide) (fun v hv => plain_bytes hv) hf
    · exact plain_optional (by decide) (by decide) (fun v hv => plain_u32 hv) hf
  restore o hlen := by
    refine hash_roundTrips.foldlM_cons (OutPoint.mk · none) o.hash (fun h hh => part_lt 1 hlen ?_)
      rfl (fun _ => rfl) ?_
    · simp only [outPoint, flatten_cons, mem_append]
      exact .inl (mem_optional hh)
    · exact foldlM_u32 (OutPoint.mk o.hash) o.index rfl (fun _ => rfl) rfl

theorem input_roundTrips : input.RoundTrips where
  plain i f hf := by
    simp only [input, flatten_cons, flatten_nil, append_nil, mem_append] at hf
    rcases hf with hf | hf
    · exact plain_optional (by decide) (by decide) (fun v hv => plain_bytes hv) hf
    · exact plain_optional (by decide) (by decide) (fun v hv => plain_bytes hv) hf
  restore i hlen := by
    refine outPoint_roundTrips.foldlM_cons (Input.mk · none) i.previousOutPoint
      (fun o ho => part_lt 1 hlen ?_) rfl (fun _ => rfl) ?_
    · simp only [input, flatten_cons, mem_append]
      exact .inl (mem_optional ho)
    · exact foldlM_optional_cons (Input.mk i.previousOutPoint) i.pubKey rfl (fun _ _ => rfl) rfl

theorem inputs_roundTrips : inputs.RoundTrips :=
  input_roundTrips.repeated Inputs.mk (·.txIns) (by decide) (by decide) (fun _ => rfl)
    (fun _ => rfl) rfl (fun _ _ => rfl)

theorem output_roundTrips : output.RoundTrips where
  plain o f hf := by
    simp only [output, flatten_cons, flatten_nil, append_nil, mem_append] at hf
    rcases hf with hf | hf | hf
    · exact plain_optional (by decide) (by decide) (fun v hv => plain_u32 hv) hf
    · exact plain_optional (by decide) (by decide) (fun v hv => plain_bytes hv) hf
    · exact plain_optional (by decide) (by decide) (fun v hv => plain_bytes hv) hf
  restore o _ := by
    refine foldlM_u32 (Output.mk · none none) o.denomination rfl (fun _ => rfl) ?_
    refine foldlM_optional_cons (Output.mk o.denomination · none) o.address rfl (fun _ _ => rfl) ?_
    exact foldlM_optional_cons (Output.mk o.denomination o.address) o.lock rfl (fun _ _ => rfl) rfl

theorem outputs_roundTrips : outputs.RoundTrips :=
  output_roundTrips.repeated Outputs.mk (·.txOuts) (by decide) (by decide) (fun _ => rfl)
    (fun _ => rfl) rfl (fun _ _ => rfl)

/-- The first `k` fields of a transaction, the others absent. -/
def Transaction.upTo (k : ℕ) (t : Transaction) : Transaction where
  type := if 0 < k then t.type else none
  recipient := if 1 < k then t.recipient else none
  nonce := if 2 < k then t.nonce else none
  value := if 3 < k then t.value else none
  gas := if 4 < k then t.gas else none
  data := if 5 < k then t.data else none
  chainId := if 6 < k then t.chainId else none
  gasPrice := if 7 < k then t.gasPrice else none
  accessList := if 8 < k then t.accessList else none
  v := if 9 < k then t.v else none
  r := if 10 < k then t.r else none
  s := if 11 < k then t.s else none
  originatingTxHash := if 12 < k then t.originatingTxHash else none
  etxIndex := if 13 < k then t.etxIndex else none
  txIns := if 14 < k then t.txIns else none
  txOuts := if 15 < k then t.txOuts else none
  signature := if 16 < k then t.signature else none
  etxSender := if 17 < k then t.etxSender else none
  parentHash := if 18 < k then t.parentHash else none
  mixHash := if 19 < k then t.mixHash else none
  workNonce := if 20 < k then t.workNonce else none
  etxType := if 21 < k then t.etxType else none

private theorem submessage_lt {M : Message α} {t : Transaction} {tag : ℕ}
    (hlen : (transaction.encode t).length < 2 ^ 64) (k : ℕ)
    (hgroup : (transactionGroups t)[k]? = some (optional tag (x.map fun m => .bytes (M.encode m))))
    (m : α) (hm : x = some m) : (M.encode m).length < 2 ^ 64 :=
  part_lt tag hlen ((sublist_flatten_of_mem (mem_of_getElem? hgroup)).subset (mem_optional hm))

theorem transaction_roundTrips : transaction.RoundTrips where
  plain t f hf := by
    simp only [transaction, transactionGroups, flatten_cons, flatten_nil,
      append_nil, mem_append] at hf
    rcases hf with hf | hf | hf | hf | hf | hf | hf | hf | hf | hf | hf | hf | hf | hf | hf | hf |
      hf | hf | hf | hf | hf | hf
    all_goals
      refine plain_optional (by decide) (by decide) (fun v hv => ?_) hf
      first | exact plain_u64 hv | exact plain_bytes hv | exact plain_u32 hv
  restore t hlen := by
    refine foldlM_u64 (fun x => { t.upTo 0 with type := x }) t.type rfl (fun _ => rfl) ?_
    refine foldlM_optional_cons (fun x => { t.upTo 1 with recipient := x }) t.recipient rfl
      (fun _ _ => rfl) ?_
    refine foldlM_u64 (fun x => { t.upTo 2 with nonce := x }) t.nonce rfl (fun _ => rfl) ?_
    refine foldlM_optional_cons (fun x => { t.upTo 3 with value := x }) t.value rfl
      (fun _ _ => rfl) ?_
    refine foldlM_u64 (fun x => { t.upTo 4 with gas := x }) t.gas rfl (fun _ => rfl) ?_
    refine foldlM_optional_cons (fun x => { t.upTo 5 with data := x }) t.data rfl (fun _ _ => rfl) ?_
    refine foldlM_optional_cons (fun x => { t.upTo 6 with chainId := x }) t.chainId rfl
      (fun _ _ => rfl) ?_
    refine foldlM_optional_cons (fun x => { t.upTo 7 with gasPrice := x }) t.gasPrice rfl
      (fun _ _ => rfl) ?_
    refine accessList_roundTrips.foldlM_cons (fun x => { t.upTo 8 with accessList := x }) t.accessList
      (submessage_lt hlen 8 rfl) rfl (fun _ => rfl) ?_
    refine foldlM_optional_cons (fun x => { t.upTo 9 with v := x }) t.v rfl (fun _ _ => rfl) ?_
    refine foldlM_optional_cons (fun x => { t.upTo 10 with r := x }) t.r rfl (fun _ _ => rfl) ?_
    refine foldlM_optional_cons (fun x => { t.upTo 11 with s := x }) t.s rfl (fun _ _ => rfl) ?_
    refine hash_roundTrips.foldlM_cons (fun x => { t.upTo 12 with originatingTxHash := x })
      t.originatingTxHash (submessage_lt hlen 12 rfl) rfl (fun _ => rfl) ?_
    refine foldlM_u32 (fun x => { t.upTo 13 with etxIndex := x }) t.etxIndex rfl (fun _ => rfl) ?_
    refine inputs_roundTrips.foldlM_cons (fun x => { t.upTo 14 with txIns := x }) t.txIns
      (submessage_lt hlen 14 rfl) rfl (fun _ => rfl) ?_
    refine outputs_roundTrips.foldlM_cons (fun x => { t.upTo 15 with txOuts := x }) t.txOuts
      (submessage_lt hlen 15 rfl) rfl (fun _ => rfl) ?_
    refine foldlM_optional_cons (fun x => { t.upTo 16 with signature := x }) t.signature rfl
      (fun _ _ => rfl) ?_
    refine foldlM_optional_cons (fun x => { t.upTo 17 with etxSender := x }) t.etxSender rfl
      (fun _ _ => rfl) ?_
    refine hash_roundTrips.foldlM_cons (fun x => { t.upTo 18 with parentHash := x }) t.parentHash
      (submessage_lt hlen 18 rfl) rfl (fun _ => rfl) ?_
    refine hash_roundTrips.foldlM_cons (fun x => { t.upTo 19 with mixHash := x }) t.mixHash
      (submessage_lt hlen 19 rfl) rfl (fun _ => rfl) ?_
    refine foldlM_u64 (fun x => { t.upTo 20 with workNonce := x }) t.workNonce rfl (fun _ => rfl) ?_
    refine foldlM_u64 (fun x => { t.upTo 21 with etxType := x }) t.etxType rfl (fun _ => rfl) ?_
    rfl

end QuaiSdk.Proto
