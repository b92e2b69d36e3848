import QuaiSdk.Abi.Words

/-!
# The decoder reads the layout

`decode` succeeds exactly where the bytes have the layout of a canonical value that the budget
allows, and returns that value.
-/

namespace QuaiSdk.Abi

open Result HeadTail BigEndian Except Holds Nat
open List hiding tails

variable {bytes : Bytes} {offset : ℕ}

theorem word_eq_ok {w : Bytes} :
    word bytes offset = .ok w ↔ Holds bytes offset w ∧ w.length = 32 := by
  rw [word, ite_error_eq_ok, not_lt]
  constructor
  · rintro ⟨hle, h⟩
    cases h
    have hlength : ((bytes.drop offset).take 32).length = 32 := by
      rw [length_take, length_drop]
      omega
    refine ⟨of_take_drop ?_ ?_, hlength⟩
    · rwa [hlength]
    · rw [hlength]
  · rintro ⟨hholds, hlength⟩
    have hle := hholds.length_le
    have htake := hholds.take_drop
    rw [hlength] at hle htake
    exact ⟨hle, congrArg ok htake⟩

theorem sizeWord_eq_ok {n : ℕ} :
    sizeWord bytes offset = .ok n ↔ Holds bytes offset (toBytes 32 n) ∧ n < 2 ^ 64 := by
  have hpow : (256 : ℕ) ^ 8 = 2 ^ 64 := by decide
  rw [sizeWord, bind_eq_ok]
  constructor
  · rintro ⟨w, hw, h⟩
    obtain ⟨hholds, hlength⟩ := word_eq_ok.mp hw
    rw [ite_error_eq_ok] at h
    obtain ⟨hzeros, h⟩ := h
    cases h
    push Not at hzeros
    have hback : (w.drop 24).length = 8 := by
      rw [length_drop]
      omega
    have hvalue : value w = value (w.drop 24) := by
      have hsplit := value_append (w.take 24) (w.drop 24)
      rw [take_append_drop, value_eq_zero_iff.mpr hzeros, zero_mul, zero_add] at hsplit
      exact hsplit
    have hself := toBytes_value w
    have hlt := value_lt (w.drop 24)
    rw [hlength, hvalue] at hself
    rw [hback, hpow] at hlt
    rw [hself]
    exact ⟨hholds, hlt⟩
  · rintro ⟨hholds, hlt⟩
    have hlength := length_toBytes 32 n
    have hvalue : value (toBytes 32 n) = n := by
      rw [value_toBytes]
      exact mod_eq_of_lt (by omega)
    have hback : ((toBytes 32 n).drop 24).length = 8 := by
      rw [length_drop, hlength]
    have hzeros := (@take_zero_iff (toBytes 32 n) 24).mpr (by rw [hvalue, hback, hpow]; exact hlt)
    have hsplit := value_append ((toBytes 32 n).take 24) ((toBytes 32 n).drop 24)
    rw [take_append_drop, value_eq_zero_iff.mpr hzeros, hvalue, zero_mul, zero_add] at hsplit
    refine ⟨_, word_eq_ok.mpr ⟨hholds, hlength⟩, ?_⟩
    rw [if_neg (by push Not; exact hzeros), ← hsplit]

theorem decodeText_eq_ok {stop : ℕ} {raw : Bytes} : decodeText bytes offset = .ok (raw, stop) ↔
      Holds bytes offset (textWords raw) ∧ raw.length ≤ maxDataBytes ∧
        stop = offset + (textWords raw).length := by
  have hmax : maxDataBytes < 2 ^ 64 := by decide
  rw [decodeText, bind_eq_ok]
  constructor
  · rintro ⟨n, hn, h⟩
    obtain ⟨hholds, -⟩ := sizeWord_eq_ok.mp hn
    have hpadded := (padded_spec n).1
    rw [ite_error_eq_ok] at h
    obtain ⟨hlen, h⟩ := h
    rw [ite_error_eq_ok, ite_error_eq_ok, zeros_iff] at h
    obtain ⟨hstop, hzeros, h⟩ := h
    cases h
    have hraw : ((bytes.drop (offset + 32)).take (padded n)).length = padded n := by
      rw [length_take, length_drop]
      omega
    have hlength : (((bytes.drop (offset + 32)).take (padded n)).take n).length = n := by
      rw [length_take, hraw]
      omega
    have hrest : (((bytes.drop (offset + 32)).take (padded n)).drop n).length = padded n - n := by
      rw [length_drop, hraw]
    rw [hrest] at hzeros
    refine ⟨?_, by omega, ?_⟩
    · rw [textWords, hlength, ← hzeros, take_append_drop, append_iff, length_toBytes]
      refine ⟨hholds, of_take_drop ?_ ?_⟩
      · omega
      · rw [hraw]
    · rw [length_textWords, hlength]
      omega
  · rintro ⟨hholds, hlen, rfl⟩
    have hle := hholds.length_le
    have hpadded := (padded_spec raw.length).1
    rw [length_textWords] at hle
    rw [textWords, append_iff, length_toBytes] at hholds
    obtain ⟨hword, hbody⟩ := hholds
    have htake := hbody.take_drop
    have hbodyLength : (raw ++ zeros (padded raw.length - raw.length)).length =
        padded raw.length := by
      rw [length_append, zeros, length_replicate]
      omega
    rw [hbodyLength] at htake
    refine ⟨raw.length, sizeWord_eq_ok.mpr ⟨hword, by omega⟩, ?_⟩
    rw [if_neg (by omega)]
    dsimp only
    rw [if_neg (by omega), htake, drop_left, take_left,
      if_neg (zeros_iff.mpr (congrArg zeros length_replicate.symm)), length_textWords,
      add_assoc]

theorem fromUTF8_eq_some {raw : Bytes} {text : String} :
    String.fromUTF8? ⟨raw.toArray⟩ = some text ↔ utf8 text = raw := by
  unfold String.fromUTF8? utf8
  constructor
  · intro h
    split at h
    · cases h
      rfl
    · cases h
  · rintro rfl
    exact dif_pos (utf8_valid text)

namespace Budget

/-- What is left to a decoder that has returned these values. -/
def spend (b : Budget) (values : List Json) : Budget :=
  ⟨b.nodes + nodesAll values, b.bytes + textBytesAll values⟩

def Within (b : Budget) : Prop := b.nodes ≤ maxValueNodes ∧ b.bytes ≤ maxDataBytes

theorem spend_cons (b : Budget) (value : Json) (values : List Json) :
    b.spend (value :: values) = (b.spend [value]).spend values := by
  simp only [spend, nodesAll, textBytesAll, Budget.mk.injEq]
  omega

theorem Within.of_spend {b : Budget} {values : List Json} (h : (b.spend values).Within) :
    b.Within :=
  ⟨le_of_add_right_le h.1, le_of_add_right_le h.2⟩

end Budget

section

variable (keccak256 : Bytes → Hash32)

/-- The bytes have a canonical value at an offset. -/
structure Reads (ty : AbiType) (bytes : Bytes) (offset : ℕ) (budget : Budget)
    (result : Json × ℕ × Budget) : Prop where
  canonical : Canonical keccak256 ty result.1
  encodes : ∃ e, Encodes keccak256 ty result.1 e ∧ Holds bytes offset e ∧
    result.2.1 = offset + e.length
  spent : result.2.2 = budget.spend [result.1]
  within : result.2.2.Within

/-- The bytes have the heads of canonical values at one place and their tails at another. -/
structure ReadsAll (types : List AbiType) (bytes : Bytes) (base head tail : ℕ) (budget : Budget)
    (result : List Json × ℕ × Budget) : Prop where
  canonical : Canonicals keccak256 types result.1
  encodes : ∃ parts, EncodesAll keccak256 types result.1 parts ∧
    Holds bytes head (heads (tail - base) parts) ∧ Holds bytes tail (tails parts) ∧
    result.2.1 = tail + (tails parts).length
  spent : result.2.2 = budget.spend result.1
  within : result.2.2.Within

/-- The decoder of a type, on bytes within the limit. -/
def Exact (ty : AbiType) (depth : ℕ) : Prop :=
  ∀ (bytes : Bytes) (offset : ℕ) (budget : Budget) (result : Json × ℕ × Budget),
    bytes.length ≤ maxDataBytes → budget.Within →
      (decode keccak256 ty depth bytes offset budget = .ok result ↔
        Reads keccak256 ty bytes offset budget result)

variable {keccak256}

theorem decoders_eq_map (types : List AbiType) :
    decoders keccak256 types = types.map fun ty => (ty.metadata, decode keccak256 ty) := by
  induction types with
  | nil => rfl
  | cons ty types ih => rw [decoders, ih, map_cons]

variable {bytes : Bytes} {base offset stop depth : ℕ} {ty : AbiType} {types : List AbiType}
  {value : Json} {values : List Json} {budget' : Budget}

theorem elementOffset_eq_ok {ty : Metadata} {head tail : ℕ} :
    elementOffset ty bytes base head tail = .ok offset ↔ if ty.dynamic = true then
        Holds bytes head (toBytes 32 (tail - base)) ∧ tail - base < 2 ^ 64 ∧ offset = tail
      else offset = head := by
  unfold elementOffset
  by_cases h : ty.dynamic = true
  · rw [if_pos h, if_pos h, bind_eq_ok]
    constructor
    · rintro ⟨relative, hsize, hoffset⟩
      obtain ⟨hholds, hlt⟩ := sizeWord_eq_ok.mp hsize
      rw [ite_error_eq_ok, not_not] at hoffset
      obtain ⟨rfl, hoffset⟩ := hoffset
      cases hoffset
      exact ⟨hholds, hlt, rfl⟩
    · rintro ⟨hholds, hlt, rfl⟩
      exact ⟨_, sizeWord_eq_ok.mpr ⟨hholds, hlt⟩, if_neg (not_not.mpr rfl)⟩
  · rw [if_neg h, if_neg h, ok.injEq, eq_comm]

theorem nextTail_eq_ok {ty : Metadata} {head tail next : ℕ} :
    nextTail ty head tail stop = .ok next ↔
      if ty.dynamic = true then next = stop else stop = head + ty.head ∧ next = tail := by
  unfold nextTail
  by_cases h : ty.dynamic = true
  · rw [if_pos h, if_pos h, ok.injEq, eq_comm]
  · rw [if_neg h, if_neg h, ite_error_eq_ok, not_not, ok.injEq, eq_comm (b := next)]

theorem element_eq_ok (hty : ty.Valid) (hbytes : bytes.length ≤ maxDataBytes) {head tail tail' : ℕ}
    {budget : Budget} :
    (∃ offset next, elementOffset ty.metadata bytes base head tail = .ok offset ∧
        Reads keccak256 ty bytes offset budget (value, next, budget') ∧
        nextTail ty.metadata head tail next = .ok tail') ↔
      ∃ e, Canonical keccak256 ty value ∧ Encodes keccak256 ty value e ∧
        Place bytes base head tail ⟨ty.metadata.dynamic, e⟩ ∧
        tail' = tail + Part.tail ⟨ty.metadata.dynamic, e⟩ ∧ budget' = budget.spend [value] ∧
        budget'.Within := by
  have hmax : maxDataBytes < 2 ^ 64 := by decide
  by_cases hdynamic : ty.metadata.dynamic = true
  · simp only [elementOffset_eq_ok, nextTail_eq_ok, Place, Part.tail, if_pos hdynamic]
    constructor
    · rintro ⟨_, _, ⟨hword, -, rfl⟩, ⟨hcanonical, ⟨e, he, hholds, hend⟩, hspent, hwithin⟩, rfl⟩
      exact ⟨e, hcanonical, he, ⟨hword, hholds⟩, hend, hspent, hwithin⟩
    · rintro ⟨e, hcanonical, he, ⟨hword, hholds⟩, rfl, hspent, hwithin⟩
      have := hholds.length_le
      exact ⟨_, _, ⟨hword, by omega, rfl⟩, ⟨hcanonical, ⟨e, he, hholds, rfl⟩, hspent, hwithin⟩, rfl⟩
  · simp only [elementOffset_eq_ok, nextTail_eq_ok, Place, Part.tail, if_neg hdynamic]
    constructor
    · rintro ⟨_, _, rfl, ⟨hcanonical, ⟨e, he, hholds, -⟩, hspent, hwithin⟩, -, rfl⟩
      exact ⟨e, hcanonical, he, hholds, rfl, hspent, hwithin⟩
    · rintro ⟨e, hcanonical, he, hholds, rfl, hspent, hwithin⟩
      have hlength := he.length_of_static hty ((Bool.not_eq_true _).mp hdynamic)
      exact ⟨_, _, rfl, ⟨hcanonical, ⟨e, he, hholds, rfl⟩, hspent, hwithin⟩, by rw [hlength], rfl⟩

section

variable (htypes : ∀ ty ∈ types, ty.Valid) (hexact : ∀ ty ∈ types, Exact keccak256 ty depth)
  (hbytes : bytes.length ≤ maxDataBytes)
include htypes hexact hbytes

theorem decodeEach_eq_ok {head tail : ℕ} (hbase : base ≤ tail)
    (hhead : head + (types.map fun ty => ty.metadata.head).sum ≤ bytes.length)
    (htail : tail ≤ bytes.length) {budget : Budget} (hwithin : budget.Within)
    {result : List Json × ℕ × Budget} :
    decodeEach depth base bytes (types.map fun ty => (ty.metadata, decode keccak256 ty)) head tail
        budget = .ok result ↔
      ReadsAll keccak256 types bytes base head tail budget result := by
  obtain ⟨values, stop, budget'⟩ := result
  induction types generalizing head tail budget values with
  | nil =>
    constructor
    · intro h
      cases h
      exact ⟨trivial, ⟨[], .nil, nil_iff.mpr hhead, nil_iff.mpr htail, rfl⟩, rfl, hwithin⟩
    · rintro ⟨-, ⟨parts, hparts, -, -, hstop⟩, hspent, -⟩
      cases hparts
      dsimp only at hstop hspent
      rw [hstop, hspent]
      rfl
  | cons ty types ih =>
    rw [map_cons, sum_cons, ← add_assoc] at hhead
    have hty := htypes ty mem_cons_self
    have hself := hexact ty mem_cons_self bytes
    have ih := @ih (forall_mem_cons.mp htypes).2 (forall_mem_cons.mp hexact).2
    rw [map_cons, decodeEach, bind_eq_ok]
    constructor
    · rintro ⟨offset, hoffset, h⟩
      obtain ⟨⟨value, next, spent⟩, hvalue, h⟩ := bind_eq_ok.mp h
      obtain ⟨tail', htail', h⟩ := bind_eq_ok.mp h
      obtain ⟨⟨values', stop', budget''⟩, hrest, h⟩ := bind_eq_ok.mp h
      cases h
      obtain ⟨e, hcanonical, he, hplace, rfl, rfl, hwithin⟩ := (element_eq_ok hty hbytes).mp
        ⟨offset, next, hoffset, (hself _ _ _ hbytes hwithin).mp hvalue, htail'⟩
      obtain ⟨hcanonicals, ⟨parts, hparts, hheads, htails, hstop⟩, hspent, hwithin'⟩ :=
        (ih (by omega) hhead (hplace.tail_le htail) hwithin _).mp hrest
      rw [← he.part_head hty] at hheads
      obtain ⟨hheads, htails⟩ := (parts_cons hbase ..).mpr ⟨hplace, hheads, htails⟩
      refine ⟨⟨hcanonical, hcanonicals⟩, ⟨_, .cons he hparts, hheads, htails, ?_⟩, ?_, hwithin'⟩
      · rw [length_tails_cons, ← add_assoc]
        exact hstop
      · rw [Budget.spend_cons]
        exact hspent
    · rintro ⟨hcanonical, ⟨parts, hparts, hheads, htails, hstop⟩, hspent, hwithin'⟩
      cases hparts with
      | cons he hparts =>
        rename_i value values e parts
        obtain ⟨hplace, hheads, htails⟩ := (parts_cons hbase ..).mp ⟨hheads, htails⟩
        rw [he.part_head hty] at hheads
        rw [length_tails_cons, ← add_assoc] at hstop
        rw [Budget.spend_cons] at hspent
        have hspends : (budget.spend [value]).Within := (hspent ▸ hwithin').of_spend
        obtain ⟨offset, next, hoffset, hreads, htail'⟩ := (element_eq_ok hty hbytes).mpr
          ⟨e, hcanonical.1, he, hplace, rfl, rfl, hspends⟩
        have hrest := (ih (by omega) hhead (hplace.tail_le htail) hspends values).mpr
          ⟨hcanonical.2, ⟨parts, hparts, hheads, htails, hstop⟩, hspent, hwithin'⟩
        refine ⟨offset, hoffset, ?_⟩
        rw [(hself _ _ _ hbytes hwithin).mpr hreads, ok_bind]
        dsimp only
        rw [htail', ok_bind, hrest]
        rfl

theorem decodeSequence_eq_ok {budget : Budget} (hwithin : budget.Within) :
    decodeSequence (types.map fun ty => (ty.metadata, decode keccak256 ty)) depth bytes base
        budget = .ok (values, stop, budget') ↔
      Canonicals keccak256 types values ∧ (∃ parts, EncodesAll keccak256 types values parts ∧
        Holds bytes base (layout parts) ∧ stop = base + (layout parts).length) ∧
      budget' = budget.spend values ∧ budget'.Within := by
  have hmax : maxDataBytes < 2 ^ 64 := by decide
  have hnodes : ((types.map fun ty => (ty.metadata, decode keccak256 ty)).map fun ty =>
      ty.1.minimumNodes) = types.map fun ty => ty.metadata.minimumNodes := by
    rw [map_map]
    rfl
  unfold decodeSequence
  rw [bind_eq_ok, hnodes, length_map]
  simp only [sequenceHead_map]
  generalize hsum : (types.map fun ty => ty.metadata.head).sum = size
  constructor
  · rintro ⟨n, ⟨rfl, -⟩, h⟩
    rw [ite_error_eq_ok, ite_error_eq_ok] at h
    obtain ⟨hle, -, h⟩ := h
    obtain ⟨hcanonical, ⟨parts, hparts, hheads, htails, hstop⟩, hspent, hwithin'⟩ :=
      (decodeEach_eq_ok htypes hexact hbytes (by omega) (by omega) (by omega) hwithin).mp h
    have hsize := hparts.headSize_eq htypes
    rw [hsum] at hsize
    dsimp only at hstop
    refine ⟨hcanonical, ⟨parts, hparts, ?_, ?_⟩, hspent, hwithin'⟩
    · rw [layout, append_iff, length_heads, hsize]
      rw [Nat.add_sub_cancel_left] at hheads
      exact ⟨hheads, htails⟩
    · rw [length_layout, hsize]
      omega
  · rintro ⟨hcanonical, ⟨parts, hparts, hholds, rfl⟩, rfl, hwithin'⟩
    have hsize := hparts.headSize_eq htypes
    have hle := hholds.length_le
    rw [hsum] at hsize
    rw [length_layout, hsize] at hle ⊢
    rw [layout, append_iff, length_heads, hsize] at hholds
    have hminimum := hparts.minimumNodes fun ty _ _ _ h => h.minimumNodes
    have hlength := hparts.length.1
    have hcount := length_le_nodesAll values
    have htotal : budget.nodes + nodesAll values ≤ maxValueNodes := hwithin'.1
    refine ⟨size, ⟨rfl, by omega⟩, ?_⟩
    rw [if_neg (by omega), if_neg (by omega)]
    refine (decodeEach_eq_ok htypes hexact hbytes (by omega) (by omega) (by omega) hwithin).mpr
      ⟨hcanonical, ⟨parts, hparts, ?_, hholds.2, ?_⟩, rfl, hwithin'⟩
    · rw [Nat.add_sub_cancel_left]
      exact hholds.1
    · dsimp only
      omega

end

theorem canonicals_replicate {child : AbiType} {n : ℕ} (hlength : values.length ≤ n) :
    Canonicals keccak256 (replicate n child) values ↔
      ∀ item ∈ values, Canonical keccak256 child item := by
  induction values generalizing n with
  | nil =>
    cases n with
    | zero => simp [Canonicals]
    | succ => simp [replicate_succ, Canonicals]
  | cons value values ih =>
    cases n with
    | zero => exact absurd hlength (by simp)
    | succ =>
      rw [replicate_succ, Canonicals, ih (le_of_succ_le_succ hlength), forall_mem_cons]

theorem spend_leaf {budget : Budget} (h : nodes value = 1) :
    budget.spend [value] = ⟨budget.nodes + 1, budget.bytes + textBytes value⟩ := by
  simp only [Budget.spend, nodesAll, textBytesAll, h, add_zero]

theorem spend_array (budget : Budget) (values : List Json) :
    budget.spend [.array values] = Budget.spend { budget with nodes := budget.nodes + 1 } values := by
  simp only [Budget.spend, nodesAll, textBytesAll, nodes_array, textBytes_array, add_zero,
    add_assoc]

theorem exact_word (hty : ty.Valid) (hdepth : depth ≤ maxDepth)
    (hword : ∀ {value e}, Encodes keccak256 ty value e → primitiveWord keccak256 ty value = .ok e)
    (hdecode : ∀ bytes offset budget, decode keccak256 ty depth bytes offset budget =
      Budget.node budget depth >>= fun budget => word bytes offset >>= fun w =>
        decodeWord keccak256 ty w >>= fun (value, length) =>
          Budget.text budget length >>= fun budget => .ok (value, offset + 32, budget)) :
    Exact keccak256 ty depth := by
  intro bytes offset budget result hbytes hwithin
  obtain ⟨value, stop, budget'⟩ := result
  rw [hdecode]
  simp only [eq_ok, node_eq_ok, word_eq_ok, text_eq_ok, Prod.exists, Prod.mk.injEq]
  constructor
  · rintro ⟨_, ⟨hnodes, -, rfl⟩, w, ⟨hholds, hlength⟩, _, _, hvalue, _, ⟨htext, rfl⟩, rfl, rfl, rfl⟩
    obtain ⟨hcanonical, hprimitive, rfl⟩ := (decodeWord_eq_ok hty hlength).mp hvalue
    refine ⟨hcanonical, ⟨w, .word hprimitive, hholds, ?_⟩, ?_, hnodes, htext⟩
    · rw [hlength]
    · exact (spend_leaf (primitiveWord_leaf hprimitive).1).symm
  · rintro ⟨hcanonical, ⟨e, hencodes, hholds, hstop⟩, hspent, hwithin'⟩
    dsimp only at hcanonical hencodes hstop hspent hwithin'
    have hprimitive := hword hencodes
    have hlength := (primitiveWord_eq_ok hty hprimitive).1
    have hvalue := (decodeWord_eq_ok hty hlength).mpr ⟨hcanonical, hprimitive, rfl⟩
    rw [spend_leaf (primitiveWord_leaf hprimitive).1] at hspent
    subst hspent hstop
    exact ⟨_, ⟨hwithin'.1, hdepth, rfl⟩, e, ⟨hholds, hlength⟩, _, _, hvalue, _, ⟨hwithin'.2, rfl⟩,
      rfl, by rw [hlength], rfl⟩

theorem exact_bytes (hdepth : depth ≤ maxDepth) : Exact keccak256 .bytes depth := by
  intro bytes offset budget result hbytes hwithin
  obtain ⟨value, stop, budget'⟩ := result
  rw [decode]
  simp only [eq_ok, node_eq_ok, decodeText_eq_ok, text_eq_ok, Prod.exists, Prod.mk.injEq]
  constructor
  · rintro ⟨_, ⟨hnodes, -, rfl⟩, raw, _, ⟨hholds, hlength, rfl⟩, _, ⟨htext, rfl⟩, rfl, rfl, rfl⟩
    have hdecode : decodeBytes (.string (toHex raw)) = some raw := by
      rw [decodeBytes_toHex, if_neg (not_lt.mpr hlength)]
    refine ⟨⟨raw, rfl⟩, ⟨_, .bytes hdecode, hholds, rfl⟩, ?_, hnodes, htext⟩
    rw [spend_leaf (nodes_string _), textBytes_string, length_toHex]
  · rintro ⟨⟨raw, rfl⟩, ⟨e, hencodes, hholds, hstop⟩, hspent, hwithin'⟩
    rw [spend_leaf (nodes_string _), textBytes_string, length_toHex] at hspent
    cases hencodes with
    | word h => cases h
    | bytes h =>
      rw [decodeBytes_toHex] at h
      split at h
      · cases h
      · next hlength =>
        cases h
        subst hspent
        exact ⟨_, ⟨hwithin'.1, hdepth, rfl⟩, raw, _, ⟨hholds, not_lt.mp hlength, hstop⟩, _,
          ⟨hwithin'.2, rfl⟩, rfl, rfl, rfl⟩

theorem exact_string (hdepth : depth ≤ maxDepth) : Exact keccak256 .string depth := by
  intro bytes offset budget result hbytes hwithin
  obtain ⟨value, stop, budget'⟩ := result
  rw [decode]
  simp only [eq_ok, node_eq_ok, decodeText_eq_ok, text_eq_ok, fromUTF8_eq_some,
    Prod.exists, Prod.mk.injEq]
  constructor
  · rintro ⟨_, ⟨hnodes, -, rfl⟩, _, _, ⟨hholds, hlength, rfl⟩, _, ⟨htext, rfl⟩, text, rfl, rfl, rfl,
      rfl⟩
    exact ⟨⟨text, rfl⟩, ⟨_, .string, hholds, rfl⟩, (spend_leaf (nodes_string _)).symm, hnodes,
      htext⟩
  · rintro ⟨hcanonical, ⟨e, hencodes, hholds, hstop⟩, hspent, hwithin'⟩
    cases hencodes with
    | word h => cases h
    | string =>
      rename_i text
      rw [spend_leaf (nodes_string _), textBytes_string] at hspent
      subst hspent
      have hlength : (utf8 text).length ≤ maxDataBytes := le_of_add_left_le hwithin'.2
      exact ⟨_, ⟨hwithin'.1, hdepth, rfl⟩, _, _, ⟨hholds, hlength, hstop⟩, _, ⟨hwithin'.2, rfl⟩,
        text, rfl, rfl, rfl, rfl⟩

theorem exact_sequence (htypes : ∀ ty ∈ types, ty.Valid)
    (hexact : ∀ ty ∈ types, Exact keccak256 ty (depth + 1)) (hbytes : bytes.length ≤ maxDataBytes)
    {budget : Budget} (hwithin : budget.Within) (hnode : budget.nodes + 1 ≤ maxValueNodes) :
    decodeSequence (types.map fun ty => (ty.metadata, decode keccak256 ty)) (depth + 1) bytes base
        { budget with nodes := budget.nodes + 1 } = .ok (values, stop, budget') ↔
      Canonicals keccak256 types values ∧ (∃ parts, EncodesAll keccak256 types values parts ∧
        Holds bytes base (layout parts) ∧ stop = base + (layout parts).length) ∧
      budget' = budget.spend [.array values] ∧ budget'.Within := by
  have hcounted : Budget.Within { budget with nodes := budget.nodes + 1 } := ⟨hnode, hwithin.2⟩
  rw [spend_array]
  exact decodeSequence_eq_ok htypes hexact hbytes hcounted

theorem nodes_of_within {budget : Budget} (h : (budget.spend [value]).Within) :
    budget.nodes + 1 ≤ maxValueNodes := by
  have hpos := nodes_pos value
  have hnodes : budget.nodes + (nodes value + 0) ≤ maxValueNodes := h.1
  omega

theorem exact_tuple {fields : List AbiType} (hfields : ∀ ty ∈ fields, ty.Valid)
    (hdepth : depth ≤ maxDepth) (hexact : ∀ ty ∈ fields, Exact keccak256 ty (depth + 1)) :
    Exact keccak256 (.tuple fields) depth := by
  intro bytes offset budget result hbytes hwithin
  obtain ⟨value, stop, budget'⟩ := result
  unfold decode
  dsimp only
  rw [decoders_eq_map]
  simp only [eq_ok, node_eq_ok, Prod.exists, Prod.mk.injEq]
  constructor
  · rintro ⟨_, ⟨hnodes, -, rfl⟩, values, _, _, hsequence, rfl, rfl, rfl⟩
    obtain ⟨hcanonicals, ⟨parts, hparts, hholds, hstop⟩, hspent, hwithin'⟩ :=
      (exact_sequence hfields hexact hbytes hwithin hnodes).mp hsequence
    refine ⟨?_, ⟨_, .tuple hparts, hholds, hstop⟩, hspent, hwithin'⟩
    exact ⟨values, rfl, hcanonicals⟩
  · rintro ⟨hcanonical, ⟨e, hencodes, hholds, hstop⟩, hspent, hwithin'⟩
    dsimp only at hcanonical hencodes hstop hspent hwithin'
    subst hspent
    obtain ⟨values, rfl, hcanonicals⟩ := hcanonical
    cases hencodes with
    | word h => cases h
    | tuple hparts =>
      have hnodes := nodes_of_within hwithin'
      exact ⟨_, ⟨hnodes, hdepth, rfl⟩, values, _, _,
        (exact_sequence hfields hexact hbytes hwithin hnodes).mpr
          ⟨hcanonicals, ⟨_, hparts, hholds, hstop⟩, rfl, hwithin'⟩, rfl, rfl, rfl⟩

theorem decodeLength_eq_ok {length : Option ℕ} {n : ℕ} :
    decodeLength length bytes offset = .ok (n, base) ↔ (∀ k ∈ length, k = n) ∧
      (length = none → Holds bytes offset (toBytes 32 n) ∧ n < 2 ^ 64) ∧
      base = offset + (lengthWord length n).length := by
  cases length with
  | none =>
    show (sizeWord bytes offset >>= fun n => .ok (n, offset + 32)) = .ok (n, base) ↔ _
    rw [bind_eq_ok, show lengthWord none n = toBytes 32 n from rfl, length_toBytes]
    constructor
    · rintro ⟨n', hn, h⟩
      cases h
      exact ⟨fun k hk => (nomatch hk), fun _ => sizeWord_eq_ok.mp hn, rfl⟩
    · rintro ⟨-, hholds, rfl⟩
      exact ⟨n, sizeWord_eq_ok.mpr (hholds rfl), rfl⟩
  | some k =>
    show ok (k, offset) = .ok (n, base) ↔ _
    rw [ok.injEq, Prod.mk.injEq, show lengthWord (some k) n = [] from rfl]
    constructor
    · rintro ⟨rfl, rfl⟩
      exact ⟨fun k' hk => (Option.some.inj hk).symm, fun h => (nomatch h), rfl⟩
    · rintro ⟨hk, -, rfl⟩
      exact ⟨hk k rfl, rfl⟩

theorem exact_array {child : AbiType} (hchild : child.Valid) {length : Option ℕ}
    (hdepth : depth ≤ maxDepth) (hexact : Exact keccak256 child (depth + 1)) :
    Exact keccak256 (.array child length) depth := by
  intro bytes offset budget result hbytes hwithin
  obtain ⟨value, stop, budget'⟩ := result
  have hmap : ∀ n, replicate n (child.metadata, decode keccak256 child) =
      (replicate n child).map fun ty => (ty.metadata, decode keccak256 ty) := by
    intro n
    rw [map_replicate]
  have hvalid : ∀ n, ∀ ty ∈ replicate n child, ty.Valid := fun n ty hmem =>
    eq_of_mem_replicate hmem ▸ hchild
  have hexacts : ∀ n, ∀ ty ∈ replicate n child, Exact keccak256 ty (depth + 1) := fun n ty hmem =>
    eq_of_mem_replicate hmem ▸ hexact
  -- only a dynamic array has a length word in front
  have hlayout : ∀ n parts, Holds bytes offset (lengthWord length n ++ layout parts) ↔
      (length = none → Holds bytes offset (toBytes 32 n)) ∧
        Holds bytes (offset + (lengthWord length n).length) (layout parts) := by
    intro n parts
    cases length with
    | none =>
      rw [append_iff]
      exact ⟨fun h => ⟨fun _ => h.1, h.2⟩, fun h => ⟨h.1 rfl, h.2⟩⟩
    | some => simp [lengthWord]
  unfold decode
  simp only [eq_ok, node_eq_ok, decodeLength_eq_ok, hmap, Prod.exists, Prod.mk.injEq]
  constructor
  · rintro ⟨_, ⟨hnodes, -, rfl⟩, n, _, ⟨hfixed, hword, rfl⟩, -, values, _, _, hsequence, rfl, rfl,
      rfl⟩
    obtain ⟨hcanonicals, ⟨parts, hparts, hholds, hstop⟩, hspent, hwithin'⟩ :=
      (exact_sequence (hvalid n) (hexacts n) hbytes hwithin hnodes).mp hsequence
    obtain rfl : n = values.length := by
      have := hparts.length.1
      rwa [length_replicate] at this
    refine ⟨?_, ⟨_, .array hfixed hparts, ?_, ?_⟩, hspent, hwithin'⟩
    · exact ⟨values, rfl, (canonicals_replicate le_rfl).mp hcanonicals⟩
    · exact (hlayout _ _).mpr ⟨fun hnone => (hword hnone).1, hholds⟩
    · rw [length_append, ← add_assoc]
      exact hstop
  · rintro ⟨hcanonical, ⟨e, hencodes, hholds, hstop⟩, hspent, hwithin'⟩
    dsimp only at hcanonical hencodes hstop hspent hwithin'
    subst hspent
    obtain ⟨values, rfl, hcanonicals⟩ := hcanonical
    cases hencodes with
    | word h => cases h
    | array hfixed hparts =>
      have hnodes := nodes_of_within hwithin'
      have hcount := length_le_nodesAll values
      have hmax : maxValueNodes < 2 ^ 64 := by decide
      have htotal : budget.nodes + (1 + nodesAll values + 0) ≤ maxValueNodes := hwithin'.1
      obtain ⟨hword, hbody⟩ := (hlayout _ _).mp hholds
      rw [length_append, ← add_assoc] at hstop
      exact ⟨_, ⟨hnodes, hdepth, rfl⟩, values.length, _,
        ⟨hfixed, fun hnone => ⟨hword hnone, by omega⟩, rfl⟩, by omega, values, _, _,
        (exact_sequence (hvalid _) (hexacts _) hbytes hwithin hnodes).mpr
          ⟨(canonicals_replicate le_rfl).mpr hcanonicals, ⟨_, hparts, hbody, hstop⟩, rfl, hwithin'⟩,
        rfl, rfl, rfl⟩

/-- The decoder reads canonical values, and reads all of them that the budget allows. -/
theorem decode_exact (hty : ty.Valid)
    (hdepth : depth + ty.metadata.depth ≤ maxDepth) : Exact keccak256 ty depth := by
  induction ty generalizing depth with
  | tuple fields ih =>
    cases hty with
    | tuple hfields hlimited =>
      refine exact_tuple hfields (by omega) fun ty hmem => ?_
      have hfield := AbiType.depth_field hmem
      have hinside : depth + 1 + ty.metadata.depth ≤ maxDepth := by omega
      exact ih ty hmem (hfields ty hmem) hinside
  | array child length ih =>
    cases hty with
    | array hchild hlimited =>
      rw [AbiType.depth_array] at hdepth
      have hinside : depth + 1 + child.metadata.depth ≤ maxDepth := by omega
      exact exact_array hchild (by omega) (ih hchild hinside)
  | bytes => exact exact_bytes (le_of_add_right_le hdepth)
  | string => exact exact_string (le_of_add_right_le hdepth)
  | _ =>
    apply exact_word hty (le_of_add_right_le hdepth)
    · intro value e h
      cases h with
      | word h => exact h
    · intro bytes offset budget
      rfl

end

end QuaiSdk.Abi
