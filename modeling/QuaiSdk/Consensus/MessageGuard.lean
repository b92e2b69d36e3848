import QuaiSdk.Consensus.QiClassification

/-!
# The message-signing guard

`has_transaction_inputs` walks bytes as a protobuf message with only a count of open groups. On
every well-formed message it tells whether a length-delimited field 15 stands outside all groups,
so no bytes of a spend are signed as a message.
-/

namespace QuaiSdk

open Wire List QiTransaction

/-- The nested `varint`, at its byte `i`. Bits beyond 64 are shifted out; the others are disjoint,
so `|=` adds them. -/
def guardVarint (i value : ℕ) : Bytes → Option (ℕ × ℕ)
  | [] => none
  | byte :: rest =>
    if i = 10 then none
    else
      let value := (value + byte.toNat % 128 * 2 ^ (7 * i)) % 2 ^ 64
      if byte.toNat < 128 then some (value, i + 1) else guardVarint (i + 1) value rest

/-- The bytes to skip behind a key, and the count and the flag after it. -/
def scanField (field wireType : ℕ) (rest : Bytes) (depth : ℕ) (inputs : Bool) :
    Option (ℕ × ℕ × Bool) :=
  match wireType with
  | 0 => do
    let (_, used) ← guardVarint 0 0 rest
    some (used, depth, inputs)
  | 1 => some (8, depth, inputs)
  | 2 => do
    let (length, used) ← guardVarint 0 0 rest
    if 2 ^ 64 ≤ length + used then none
    else some (length + used, depth, inputs || decide (field = 15 ∧ depth = 0))
  | 3 => some (0, depth + 1, inputs)
  | 4 => if depth = 0 then none else some (0, depth - 1, inputs)
  | 5 => some (4, depth, inputs)
  | _ => none

def scanRound (rest : Bytes) (depth : ℕ) (inputs : Bool) : Option (Bytes × ℕ × Bool) := do
  let (key, used) ← guardVarint 0 0 rest
  let rest := rest.drop used
  if key / 8 = 0 then none
  else
    let (skip, depth, inputs) ← scanField (key / 8) (key % 8) rest depth inputs
    if rest.length < skip then none else some (rest.drop skip, depth, inputs)

/-- The loop; each round takes a byte at least. -/
def scan : ℕ → Bytes → ℕ → Bool → Bool
  | _, [], depth, inputs => inputs && depth == 0
  | 0, _, _, _ => false
  | fuel + 1, rest, depth, inputs =>
    match scanRound rest depth inputs with
    | none => false
    | some (rest, depth, inputs) => scan fuel rest depth inputs

def hasTransactionInputs (bytes : Bytes) : Bool := scan bytes.length bytes 0 false

/-- A varint of at most `k` bytes. -/
inductive VarintForm : ℕ → Bytes → ℕ → Prop
  | last {k : ℕ} {b : UInt8} (h : b.toNat < 128) : VarintForm (k + 1) [b] b.toNat
  | more {k : ℕ} {b : UInt8} {form : Bytes} {n : ℕ} (h : 128 ≤ b.toNat)
      (rest : VarintForm k form n) : VarintForm (k + 1) (b :: form) (b.toNat % 128 + 128 * n)

/-- A 64-bit varint of at most ten bytes, in any form. -/
def Varint (form : Bytes) (n : ℕ) : Prop := ∃ m, VarintForm 10 form m ∧ m % 2 ^ 64 = n

inductive FieldBody : ℕ → Bytes → Prop
  | varint {form : Bytes} {n : ℕ} (h : Varint form n) : FieldBody 0 form
  | fixed64 {b : Bytes} (h : b.length = 8) : FieldBody 1 b
  | bytes {form b : Bytes} (h : Varint form b.length) : FieldBody 2 (form ++ b)
  | fixed32 {b : Bytes} (h : b.length = 4) : FieldBody 5 b

/-- A message, with the numbers and wire types of its fields outside groups. -/
inductive WellFormed : Bytes → List (ℕ × ℕ) → Prop
  | nil : WellFormed [] []
  | field {key body rest : Bytes} {tag wireType : ℕ} {fields : List (ℕ × ℕ)}
      (hkey : Varint key (tag * 8 + wireType)) (htag : 0 < tag) (hbody : FieldBody wireType body)
      (hrest : WellFormed rest fields) :
      WellFormed (key ++ (body ++ rest)) ((tag, wireType) :: fields)
  | group {key body stop rest : Bytes} {tag : ℕ} {inner fields : List (ℕ × ℕ)}
      (hkey : Varint key (tag * 8 + 3)) (htag : 0 < tag) (hbody : WellFormed body inner)
      (hstop : Varint stop (tag * 8 + 4)) (hrest : WellFormed rest fields) :
      WellFormed (key ++ (body ++ (stop ++ rest))) ((tag, 3) :: fields)

variable {key body rest b : Bytes} {tag wireType n depth : ℕ} {inputs : Bool}
  {fields : List (ℕ × ℕ)}

theorem VarintForm.guardVarint {k : ℕ} (h : VarintForm k b n) {i : ℕ} (hi : i + k = 10)
    (value : ℕ) (rest : Bytes) :
    guardVarint i value (b ++ rest) = some ((value + n * 2 ^ (7 * i)) % 2 ^ 64, i + b.length) := by
  induction h generalizing i value with
  | last h =>
    rw [singleton_append, QuaiSdk.guardVarint, if_neg (by omega)]
    simp only [h, if_true, Nat.mod_eq_of_lt h]
    rfl
  | @more k b form n h _ ih =>
    rw [cons_append, QuaiSdk.guardVarint, if_neg (by omega)]
    simp only [if_neg (show ¬b.toNat < 128 by omega)]
    rw [ih (by omega), Nat.mod_add_mod, length_cons, show 7 * (i + 1) = 7 * i + 7 by ring, pow_add]
    congr 2
    · ring_nf
    · omega

theorem Varint.guardVarint (h : Varint b n) (rest : Bytes) :
    guardVarint 0 0 (b ++ rest) = some (n, b.length) := by
  obtain ⟨m, hform, rfl⟩ := h
  rw [hform.guardVarint rfl]
  simp

theorem VarintForm.length_bounds {k : ℕ} (h : VarintForm k b n) : 0 < b.length ∧ b.length ≤ k := by
  induction h with
  | last => simp
  | more _ _ ih => exact ⟨Nat.succ_pos _, Nat.succ_le_succ ih.2⟩

theorem Varint.length_bounds (h : Varint b n) : 0 < b.length ∧ b.length ≤ 10 := by
  obtain ⟨m, hform, -⟩ := h
  exact hform.length_bounds

theorem FieldBody.scanField (h : FieldBody wireType body) (hsize : body.length < 2 ^ 63) (tag : ℕ)
    (rest : Bytes) (depth : ℕ) (inputs : Bool) :
    scanField tag wireType (body ++ rest) depth inputs =
      some (body.length, depth, inputs || decide (depth = 0 ∧ (15, 2) = (tag, wireType))) := by
  cases h with
  | varint h => simp [QuaiSdk.scanField, h.guardVarint]
  | fixed64 h | fixed32 h => simp [QuaiSdk.scanField, h]
  | @bytes form b h =>
    rw [length_append] at hsize ⊢
    have hfits : form.length + b.length < 18446744073709551616 := by omega
    simp [QuaiSdk.scanField, h.guardVarint, hfits, Nat.add_comm, and_comm, eq_comm]

theorem scan_key {fuel depth' : ℕ} {inputs' : Bool} (hkey : Varint key (tag * 8 + wireType))
    (htag : 0 < tag) (htype : wireType < 8)
    (hfield : scanField tag wireType (body ++ rest) depth inputs =
      some (body.length, depth', inputs'))
    (hfuel : (key ++ (body ++ rest)).length ≤ fuel) :
    ∃ fuel', rest.length ≤ fuel' ∧
      scan fuel (key ++ (body ++ rest)) depth inputs = scan fuel' rest depth' inputs' := by
  have hround : scanRound (key ++ (body ++ rest)) depth inputs = some (rest, depth', inputs') := by
    have hdiv : (tag * 8 + wireType) / 8 = tag := by omega
    have hmod : (tag * 8 + wireType) % 8 = wireType := by omega
    simp only [scanRound, hkey.guardVarint, drop_left, hdiv, hmod, if_neg htag.ne', hfield,
      Option.bind_eq_bind, Option.bind_some, length_append]
    rw [if_neg (by omega)]
  have hpos := hkey.length_bounds.1
  simp only [length_append] at hfuel
  obtain ⟨fuel, rfl⟩ := Nat.exists_eq_add_of_lt (show 0 < fuel by omega)
  refine ⟨0 + fuel, by omega, ?_⟩
  obtain ⟨c, key, rfl⟩ := exists_cons_of_length_pos hpos
  rw [cons_append] at hround ⊢
  simp only [scan, hround]

theorem WellFormed.scan (h : WellFormed b fields) (rest : Bytes) (depth : ℕ) (inputs : Bool)
    {fuel : ℕ} (hfuel : (b ++ rest).length ≤ fuel) (hsize : (b ++ rest).length < 2 ^ 63) :
    ∃ fuel', rest.length ≤ fuel' ∧ scan fuel (b ++ rest) depth inputs =
      scan fuel' rest depth (inputs || decide (depth = 0 ∧ (15, 2) ∈ fields)) := by
  induction h generalizing rest depth inputs fuel with
  | nil => exact ⟨fuel, hfuel, by simp⟩
  | @field key body tail tag wireType fields hkey htag hbody _ ih =>
    simp only [append_assoc] at hfuel hsize ⊢
    have htype : wireType < 8 := by cases hbody <;> decide
    have hfield := hbody.scanField (by simp only [length_append] at hsize; omega) tag (tail ++ rest)
      depth inputs
    obtain ⟨fuel', hfuel', hscan⟩ := scan_key hkey htag htype hfield hfuel
    obtain ⟨fuel'', hfuel'', hrest⟩ := ih rest depth _ hfuel'
      (by simp only [length_append] at hsize ⊢; omega)
    refine ⟨fuel'', hfuel'', ?_⟩
    rw [hscan, hrest, Bool.or_assoc]
    congr 2
    simp only [mem_cons, and_or_left, Bool.decide_or]
  | @group key body stop tail tag inner fields hkey htag _ hstop _ ihbody ih =>
    simp only [append_assoc] at hfuel hsize ⊢
    -- the key opens the group, so nothing in its body counts, and `stop` closes it again
    obtain ⟨fuel₁, hfuel₁, hopen⟩ := scan_key hkey htag (by decide)
      (show scanField tag 3 ([] ++ (body ++ (stop ++ (tail ++ rest)))) depth inputs = _ from rfl)
      hfuel
    simp only [length_append] at hsize
    obtain ⟨fuel₂, hfuel₂, hinner⟩ := ihbody (stop ++ (tail ++ rest)) (depth + 1) inputs hfuel₁
      (by simp only [length_append]; omega)
    rw [decide_eq_false (by simp), Bool.or_false] at hinner
    obtain ⟨fuel₃, hfuel₃, hclose⟩ := scan_key hstop htag (by decide)
      (show scanField tag 4 ([] ++ (tail ++ rest)) (depth + 1) inputs = _ from rfl) hfuel₂
    obtain ⟨fuel₄, hfuel₄, hrest⟩ := ih rest depth inputs hfuel₃
      (by simp only [length_append]; omega)
    refine ⟨fuel₄, hfuel₄, ?_⟩
    calc
      _ = QuaiSdk.scan fuel₁ (body ++ (stop ++ (tail ++ rest))) (depth + 1) inputs := hopen
      _ = QuaiSdk.scan fuel₃ (tail ++ rest) depth inputs := hinner.trans hclose
      _ = _ := by simp [hrest]

theorem hasTransactionInputs_iff (h : WellFormed b fields) (hsize : b.length < 2 ^ 63) :
    hasTransactionInputs b = true ↔ (15, 2) ∈ fields := by
  obtain ⟨fuel, -, hscan⟩ := h.scan [] 0 false (by rw [append_nil]) (by rwa [append_nil])
  rw [append_nil] at hscan
  rw [hasTransactionInputs, hscan]
  simp [QuaiSdk.scan]

-- an empty field 15, and the same in a group
example : hasTransactionInputs [0x7a, 0] = true ∧
    hasTransactionInputs [0x0b, 0x7a, 0, 0x0c] = false := by decide

theorem varintForm_write {rounds : ℕ} (hn : n < 128 ^ rounds) (hrounds : 0 < rounds) :
    VarintForm rounds (writeVarintIn rounds n) n := by
  induction rounds generalizing n with
  | zero => omega
  | succ rounds ih =>
    rw [writeVarintIn]
    by_cases hsmall : n < 128
    · rw [if_pos hsmall]
      have hbyte : (UInt8.ofNat n).toNat = n := by simp; omega
      have hform := VarintForm.last (k := rounds) (b := UInt8.ofNat n) (by omega)
      rwa [hbyte] at hform
    · rw [if_neg hsmall]
      have hbyte : (UInt8.ofNat (n % 128 + 128)).toNat = n % 128 + 128 := by simp; omega
      have hquot : n / 128 < 128 ^ rounds := Nat.div_lt_of_lt_mul (by rwa [← pow_succ'])
      have hpos : 0 < rounds := Nat.pos_of_ne_zero (by rintro rfl; omega)
      have hform := VarintForm.more (b := UInt8.ofNat (n % 128 + 128)) (by omega) (ih hquot hpos)
      rwa [hbyte, Nat.add_mod_right, Nat.mod_mod, Nat.mod_add_div] at hform

theorem varint_write (hn : n < 2 ^ 64) : Varint (writeVarint n) n :=
  ⟨n, varintForm_write (hn.trans (by decide)) (by decide), Nat.mod_eq_of_lt hn⟩

theorem wellFormed_writeFields {fs : List Field} (hplain : ∀ f ∈ fs, f.Plain)
    (hsize : (writeFields fs).length < 2 ^ 63) :
    WellFormed (writeFields fs) (fs.map fun f => (f.tag, f.value.wireType)) := by
  induction fs with
  | nil => exact .nil
  | cons f fs ih =>
    have hf := hplain f mem_cons_self
    rw [writeFields, flatMap_cons, Field.write, append_assoc] at hsize ⊢
    simp only [length_append] at hsize
    have hbody : FieldBody f.value.wireType f.value.write := by
      obtain ⟨tag, value⟩ := f
      cases value with
      | varint => exact .varint (varint_write hf.value)
      | bytes =>
        refine .bytes (varint_write ?_)
        simp only [Value.write, length_append] at hsize
        omega
      | fixed64 | fixed32 => exact hf.value.elim
    have hkey := f.value.wireType_lt
    have hrest := fun g hg => hplain g (mem_cons_of_mem f hg)
    refine .field (varint_write ?_) hf.pos hbody (ih hrest ?_)
    · have := hf.lt
      omega
    · rw [writeFields]
      omega

/-- The guard sees the inputs of whatever is encoded with some. -/
theorem hasTransactionInputs_of_decode {p : Proto.Transaction} {ins : Proto.Inputs}
    (h : decode b = .ok p) (hins : p.txIns = some ins) : hasTransactionInputs b = true := by
  obtain ⟨rfl, hlen⟩ := encode_eq_ok (encode_of_decode h)
  have hsize := lt_of_le_of_lt hlen (show maxTransactionBytes < 2 ^ 63 by decide)
  have hmessage := wellFormed_writeFields (Proto.transaction_roundTrips.plain p) hsize
  refine (hasTransactionInputs_iff hmessage hsize).mpr (mem_map.mpr ?_)
  refine ⟨⟨15, .bytes (Proto.inputs.encode ins)⟩, ?_, rfl⟩
  simp [Proto.transaction, Proto.transactionGroups, Wire.optional, hins]

variable {C : Crypto}

theorem hasTransactionInputs_unsigned {t : QiTransaction C} {mode : QiMode}
    (h : t.unsignedBytesFor mode = .ok b) : hasTransactionInputs b = true :=
  hasTransactionInputs_of_decode (unsignedBytesFor_spec h).1 rfl

theorem hasTransactionInputs_signed {op : SignedQiOperation C} (h : op.AcceptedBy b) :
    hasTransactionInputs b = true := by
  obtain ⟨p, hp, -, -, -, rfl, -⟩ := signedBytesFor_spec (op.signedBytes_of_acceptedBy h)
  exact hasTransactionInputs_of_decode hp rfl

/-- The guard is complete. A Rust slice is shorter than `2 ^ 63` bytes. -/
theorem message_guard_complete (C : Crypto) (b : Bytes) :
    (∀ fields, WellFormed b fields → b.length < 2 ^ 63 →
      (hasTransactionInputs b = true ↔ (15, 2) ∈ fields)) ∧
    (∀ t, decodeUnsigned C b = .ok t → hasTransactionInputs b = true) ∧
    (∀ c, QiConversionTransaction.decodeUnsigned C b = .ok c → hasTransactionInputs b = true) ∧
    (∀ w, QiWrappingTransaction.decodeUnsigned C b = .ok w → hasTransactionInputs b = true) ∧
    (∀ op : SignedQiOperation C, op.AcceptedBy b → hasTransactionInputs b = true) ∧
    ∀ op, SignedQiOperation.decode C b = .ok op → hasTransactionInputs b = true := by
  refine ⟨fun fields h hsize => hasTransactionInputs_iff h hsize, fun t h => ?_, fun c h => ?_,
    fun w h => ?_, fun op h => hasTransactionInputs_signed h, fun op h => ?_⟩
  · exact hasTransactionInputs_unsigned ((transfer_unsigned_inverse C).encode_decode b t h)
  · exact hasTransactionInputs_unsigned ((conversion_unsigned_inverse C).encode_decode b c h)
  · exact hasTransactionInputs_unsigned ((wrapping_unsigned_inverse C).encode_decode b w h)
  · exact hasTransactionInputs_signed (SignedQiOperation.decode_eq_ok_iff.mp h)

end QuaiSdk
