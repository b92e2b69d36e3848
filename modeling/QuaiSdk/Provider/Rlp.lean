import QuaiSdk.Consensus.Codec

/-!
# RLP

The strict decoder of `state_proof.rs`: canonical lengths only, no trailing bytes, and a bound on the
nesting.  The writer is the one of the test trie.  What it writes reads back, at any depth that the
decoder still allows.
-/

namespace QuaiSdk.Provider

open Result BigEndian List UInt8

/-- Why a proof does not establish a value; the reason of `malformed` is the source's text. -/
inductive ProofError where
  | tooLarge
  | malformed (reason : String)
  | hashMismatch
  | incomplete
  | unusedNodes
  | contradicted
  deriving DecidableEq

namespace Rlp

inductive Item where
  | bytes (b : Bytes)
  | list (items : List Item)

/-- Deepest nesting, `MAX_DEPTH`. -/
def maxDepth : ℕ := 8

/-- A long-form length: `size` big-endian bytes, canonical and over 55.  A `usize` has 8 bytes. -/
def long (input : Bytes) (size : ℕ) : Except ProofError (ℕ × Bytes) :=
  if input.length < size then .error (.malformed "truncated RLP length")
  else if (input.take size).headD 0 = 0 ∨ 8 < size then
    .error (.malformed "non-canonical RLP length")
  else if value (input.take size) ≤ 55 then
    .error (.malformed "non-canonical RLP length")
  else .ok (value (input.take size), input.drop size)

/-- What a first byte from 0x80 on announces: a list or a string, its length and where it starts. -/
def header (first : UInt8) (after : Bytes) : Except ProofError (Bool × ℕ × Bytes) :=
  if first ≤ 0xb7 then .ok (false, first.toNat - 0x80, after)
  else if first ≤ 0xbf then do
    let (length, body) ← long after (first.toNat - 0xb7)
    .ok (false, length, body)
  else if first ≤ 0xf7 then .ok (true, first.toNat - 0xc0, after)
  else do
    let (length, body) ← long after (first.toNat - 0xf7)
    .ok (true, length, body)

/-- Items until the content is used up.  An item takes at least a byte, so the fuel is never short. -/
def items (read : Bytes → Except ProofError (Item × Bytes)) :
    ℕ → Bytes → Except ProofError (List Item)
  | _, [] => .ok []
  | 0, _ :: _ => .error (.malformed "truncated RLP")
  | fuel + 1, b :: rest => do
    let (child, next) ← read (b :: rest)
    let others ← items read fuel next
    .ok (child :: others)

def item : ℕ → Bytes → Except ProofError (Item × Bytes)
  | 0, _ => .error (.malformed "RLP nesting too deep")
  | _ + 1, [] => .error (.malformed "truncated RLP")
  | levels + 1, first :: after =>
    if first < 0x80 then .ok (.bytes [first], after)
    else do
      let (list, length, body) ← header first after
      if body.length < length then .error (.malformed "truncated RLP")
      else
        let content := body.take length
        let rest := body.drop length
        if list = false then
          if length = 1 ∧ content.headD 0 < 0x80 then
            .error (.malformed "non-canonical single-byte RLP")
          else .ok (.bytes content, rest)
        else do
          let children ← items (item levels) content.length content
          .ok (.list children, rest)

def decode (input : Bytes) : Except ProofError Item := do
  let (value, rest) ← item (maxDepth + 1) input
  if rest ≠ [] then .error (.malformed "trailing bytes after RLP item") else .ok value

def uint (b : Bytes) : Except ProofError U256 :=
  if b.head? = some 0 then .error (.malformed "integer has a leading zero")
  else if 32 < b.length then .error (.malformed "integer exceeds 256 bits")
  else .ok (U256.ofNat (value b))

/-- `length`: a short form up to 55, else the minimal big-endian bytes behind their count. -/
def lengthBytes (n : ℕ) (offset : UInt8) : Bytes :=
  if n ≤ 55 then [offset + ofNat n]
  else
    let be := strip (toBytes 8 n)
    (offset + 55 + ofNat be.length) :: be

/-- `bytes`. -/
def writeBytes (value : Bytes) : Bytes :=
  if value.length = 1 ∧ value.headD 0 < 0x80 then value
  else lengthBytes value.length 0x80 ++ value

/-- `list`. -/
def writeList (written : List Bytes) : Bytes :=
  lengthBytes written.flatten.length 0xc0 ++ written.flatten

/-- Read back as this item, before anything, wherever so many levels are left. -/
def Encodes (levels : ℕ) (value : Item) (b : Bytes) : Prop :=
  ∀ n rest, levels ≤ n → item n (b ++ rest) = .ok (value, rest)

variable {levels n : ℕ}

theorem Encodes.decode {value : Item} {b : Bytes} (h : Encodes levels value b)
    (hlevels : levels ≤ maxDepth + 1) : decode b = .ok value := by
  have hitem := h (maxDepth + 1) [] hlevels
  rw [append_nil] at hitem
  rw [Rlp.decode, hitem]
  rfl

theorem long_strip (hlarge : 55 < n) (hn : n < 256 ^ 8) (body : Bytes) :
    long (strip (toBytes 8 n) ++ body) (strip (toBytes 8 n)).length = .ok (n, body) := by
  have hvalue : value (strip (toBytes 8 n)) = n := by
    rw [value_strip, value_toBytes, Nat.mod_eq_of_lt hn]
  have hlength := length_strip_le (toBytes 8 n)
  have hhead := head?_strip_ne_zero (toBytes 8 n)
  rw [length_toBytes] at hlength
  generalize strip (toBytes 8 n) = be at hvalue hlength hhead
  have htake : (be ++ body).take be.length = be := take_left
  have hdrop : (be ++ body).drop be.length = body := drop_left
  have hzero : ¬be.headD 0 = 0 := by
    cases be with
    | nil =>
      change 0 = n at hvalue
      omega
    | cons => simpa using hhead
  rw [long, htake, hdrop, hvalue, if_neg (by simp), if_neg (by rw [not_or]; exact ⟨hzero, by omega⟩),
    if_neg (by omega)]

theorem header_lengthBytes (hn : n < 256 ^ 8) (list : Bool) (body : Bytes) :
    ∃ first tail, lengthBytes n (if list = true then 0xc0 else 0x80) = first :: tail ∧
      ¬first < 0x80 ∧ header first (tail ++ body) = .ok (list, n, body) := by
  unfold lengthBytes
  by_cases hsmall : n ≤ 55
  · rw [if_pos hsmall]
    refine ⟨_, [], rfl, ?_, ?_⟩
    · cases list <;> simp [lt_iff_toNat_lt] <;> omega
    · unfold header
      cases list
      · rw [if_pos (by simp [le_iff_toNat_le]; omega)]
        simp
        omega
      · rw [if_neg (by simp [le_iff_toNat_le]; omega), if_neg (by simp [le_iff_toNat_le]; omega),
          if_pos (by simp [le_iff_toNat_le]; omega)]
        simp
        omega
  · rw [if_neg hsmall]
    have hlong := long_strip (not_le.mp hsmall) hn body
    have hlength := length_strip_le (toBytes 8 n)
    rw [length_toBytes] at hlength
    have hpos : 0 < (strip (toBytes 8 n)).length := by
      rw [length_pos_iff]
      intro hnil
      have hvalue := value_strip (toBytes 8 n)
      rw [hnil, value_toBytes, Nat.mod_eq_of_lt hn] at hvalue
      change 0 = n at hvalue
      omega
    generalize strip (toBytes 8 n) = be at hlong hlength hpos
    refine ⟨_, be, rfl, ?_, ?_⟩
    · cases list <;> simp [lt_iff_toNat_lt] <;> omega
    · unfold header
      cases list
      · have hsize : ((0x80 : UInt8) + 55 + ofNat be.length).toNat - 0xb7 = be.length := by
          simp
          omega
        rw [if_neg Bool.false_ne_true, if_neg (by simp [le_iff_toNat_le]; omega),
          if_pos (by simp [le_iff_toNat_le]; omega), hsize, hlong]
        rfl
      · have hsize : ((0xc0 : UInt8) + 55 + ofNat be.length).toNat - 0xf7 = be.length := by
          simp
          omega
        rw [if_pos rfl, if_neg (by simp [le_iff_toNat_le]; omega),
          if_neg (by simp [le_iff_toNat_le]; omega),
          if_neg (by simp [le_iff_toNat_le]; omega), hsize, hlong]
        rfl

theorem encodes_bytes {value : Bytes} (h : value.length < 256 ^ 8) :
    Encodes 1 (.bytes value) (writeBytes value) := by
  intro n rest hn
  obtain ⟨levels, rfl⟩ : ∃ levels, n = levels + 1 := ⟨n - 1, by omega⟩
  unfold writeBytes
  split
  · rename_i hsingle
    obtain ⟨b, rfl⟩ := length_eq_one_iff.mp hsingle.1
    exact if_pos hsingle.2
  · rename_i hsingle
    obtain ⟨first, tail, hbytes, hfirst, hheader⟩ := header_lengthBytes h false (value ++ rest)
    rw [if_neg Bool.false_ne_true] at hbytes
    rw [hbytes, append_assoc, cons_append, item, if_neg hfirst, hheader]
    show (if (value ++ rest).length < value.length then _ else _) = _
    rw [if_neg (by simp), take_left, drop_left, if_pos rfl, if_neg hsingle]

theorem length_lengthBytes (n : ℕ) (offset : UInt8) : 1 ≤ (lengthBytes n offset).length := by
  unfold lengthBytes
  split
  · exact le_rfl
  · exact Nat.le_add_left 1 _

theorem writeBytes_ne_nil (value : Bytes) : writeBytes value ≠ [] := by
  unfold writeBytes
  split
  · rename_i h
    rintro rfl
    cases h.1
  · rw [Ne, append_eq_nil_iff, not_and_or]
    exact .inl (ne_nil_of_length_pos (length_lengthBytes _ _))

theorem length_writeList (written : List Bytes) :
    written.flatten.length < (writeList written).length := by
  have hlength := length_lengthBytes written.flatten.length 0xc0
  rw [writeList, length_append]
  omega

/-- The canonical encoding. -/
def Item.encode : Item → Bytes
  | .bytes b => writeBytes b
  | .list items => writeList (items.map fun i => i.encode)

/-- Nested to so many levels at most. -/
inductive Within : ℕ → Item → Prop
  | bytes {n : ℕ} (b : Bytes) : Within (n + 1) (.bytes b)
  | list {n : ℕ} {items : List Item} (h : ∀ i ∈ items, Within n i) : Within (n + 1) (.list items)

variable {i : Item} {b : Bytes}

theorem encode_ne_nil (i : Item) : i.encode ≠ [] := by
  cases i with
  | bytes b =>
    rw [Item.encode]
    exact writeBytes_ne_nil b
  | list =>
    rw [Item.encode]
    exact ne_nil_of_length_pos (Nat.zero_lt_of_lt (length_writeList _))

theorem items_encodes {values : List Item} (h : ∀ i ∈ values, Encodes levels i i.encode)
    {fuel : ℕ} (hfuel : (values.map fun i => i.encode).flatten.length ≤ fuel) (hn : levels ≤ n) :
    items (item n) fuel (values.map fun i => i.encode).flatten = .ok values := by
  induction values generalizing fuel with
  | nil => cases fuel <;> rfl
  | cons value values ih =>
    have hread := h value mem_cons_self n (values.map fun i => i.encode).flatten hn
    obtain ⟨first, tail, hvalue⟩ := exists_cons_of_ne_nil (encode_ne_nil value)
    rw [map_cons, flatten_cons] at hfuel ⊢
    rw [hvalue, cons_append] at hfuel hread ⊢
    rw [length_cons, length_append] at hfuel
    obtain ⟨fuel, rfl⟩ : ∃ k, fuel = k + 1 := ⟨fuel - 1, by omega⟩
    rw [items, hread]
    show (items (item n) fuel (values.map fun i => i.encode).flatten >>= _) = _
    rw [ih (forall_mem_cons.mp h).2 (by omega)]
    rfl

theorem encodes_list {values : List Item} (h : ∀ i ∈ values, Encodes levels i i.encode)
    (hlength : (values.map fun i => i.encode).flatten.length < 256 ^ 8) :
    Encodes (levels + 1) (.list values) (Item.list values).encode := by
  intro n rest hn
  obtain ⟨n, rfl⟩ : ∃ k, n = k + 1 := ⟨n - 1, by omega⟩
  obtain ⟨first, tail, hbytes, hfirst, hheader⟩ :=
    header_lengthBytes hlength true ((values.map fun i => i.encode).flatten ++ rest)
  rw [if_pos rfl] at hbytes
  rw [Item.encode, writeList, hbytes, append_assoc, cons_append, item, if_neg hfirst, hheader]
  show (if (_ ++ rest).length < _ then _ else _) = _
  rw [if_neg (by simp), take_left, drop_left, if_neg (by decide), items_encodes h le_rfl (by omega)]
  rfl

theorem Within.mono {m : ℕ} (h : Within n i) (hle : n ≤ m) : Within m i := by
  induction h generalizing m with
  | bytes b =>
    obtain ⟨m, rfl⟩ : ∃ k, m = k + 1 := ⟨m - 1, by omega⟩
    exact .bytes b
  | list h ih =>
    obtain ⟨m, rfl⟩ : ∃ k, m = k + 1 := ⟨m - 1, by omega⟩
    exact .list fun i hi => ih i hi (by omega)

theorem length_writeBytes (value : Bytes) : value.length ≤ (writeBytes value).length := by
  unfold writeBytes
  split
  · exact le_rfl
  · rw [length_append]
    exact Nat.le_add_left _ _

theorem Within.encodes (h : Within n i) (hlength : i.encode.length < 256 ^ 8) :
    Encodes n i i.encode := by
  induction h with
  | bytes b =>
    rw [Item.encode] at hlength ⊢
    have hb := length_writeBytes b
    exact fun m rest hm => encodes_bytes (by omega) m rest (le_trans (Nat.le_add_left 1 _) hm)
  | @list n items h ih =>
    have hflat := length_writeList (items.map fun i => i.encode)
    rw [Item.encode] at hlength
    refine encodes_list (fun i hi => ih i hi ?_) (by omega)
    have hchild : i.encode.length ≤ (items.map fun i => i.encode).flatten.length :=
      (sublist_flatten_of_mem (mem_map_of_mem hi)).length_le
    omega

theorem long_eq_ok {input body : Bytes} {size length : ℕ}
    (h : long input size = .ok (length, body)) :
    ∃ be, input = be ++ body ∧ be.length = size ∧ strip (toBytes 8 length) = be ∧ 55 < length := by
  simp only [long, eq_ok, Prod.mk.injEq, not_or] at h
  obtain ⟨hsize, ⟨hhead, hsmall⟩, hlarge, rfl, rfl⟩ := h
  have hlength : (input.take size).length = size := by
    rw [length_take]
    omega
  exact ⟨_, (take_append_drop size input).symm, hlength,
    strip_toBytes_value (by omega) hhead, by omega⟩

theorem header_eq_ok {first : UInt8} {after body : Bytes} {list : Bool} {length : ℕ}
    (hfirst : ¬first < 0x80) (h : header first after = .ok (list, length, body)) :
    first :: after = lengthBytes length (if list = true then 0xc0 else 0x80) ++ body := by
  have hshort : ∀ (offset : UInt8) (k : ℕ), offset.toNat = k → k ≤ first.toNat →
      first.toNat - k ≤ 55 → first :: after = lengthBytes (first.toNat - k) offset ++ after := by
    intro offset k hk hoffset hsmall
    have hlt := first.toNat_lt
    rw [lengthBytes, if_pos hsmall, singleton_append, cons.injEq]
    exact ⟨UInt8.toNat_inj.mp (by simp; omega), rfl⟩
  have hlong : ∀ (offset : UInt8) {size : ℕ}, long after size = .ok (length, body) →
      first = offset + 55 + ofNat size → first :: after = lengthBytes length offset ++ body := by
    intro offset size hread hsize
    obtain ⟨be, rfl, rfl, hbe, hlarge⟩ := long_eq_ok hread
    rw [lengthBytes, if_neg (by omega), hbe, hsize, cons_append]
  have hlt := first.toNat_lt
  simp only [lt_iff_toNat_lt, reduceToNat] at hfirst
  simp only [header, le_iff_toNat_le, reduceToNat] at h
  split at h
  · obtain ⟨rfl, rfl, rfl⟩ := by simpa only [Except.ok.injEq, Prod.mk.injEq] using h
    exact hshort 0x80 128 rfl (by omega) (by omega)
  · split at h
    · obtain ⟨⟨n, rest⟩, hread, h⟩ := bind_eq_ok.mp h
      cases h
      exact hlong 0x80 hread (UInt8.toNat_inj.mp (by simp; omega))
    · split at h
      · obtain ⟨rfl, rfl, rfl⟩ := by simpa only [Except.ok.injEq, Prod.mk.injEq] using h
        exact hshort 0xc0 192 rfl (by omega) (by omega)
      · obtain ⟨⟨n, rest⟩, hread, h⟩ := bind_eq_ok.mp h
        cases h
        exact hlong 0xc0 hread (UInt8.toNat_inj.mp (by simp; omega))

variable {read : Bytes → Except ProofError (Item × Bytes)}

theorem items_canonical {fuel : ℕ} {children : List Item}
    (hread : ∀ {b i rest}, read b = .ok (i, rest) → b = i.encode ++ rest ∧ Within n i)
    (h : items read fuel b = .ok children) :
    b = (children.map fun i => i.encode).flatten ∧ ∀ i ∈ children, Within n i := by
  induction fuel generalizing b children with
  | zero =>
    cases b with
    | nil =>
      cases h
      exact ⟨rfl, by simp⟩
    | cons => cases h
  | succ fuel ih =>
    cases b with
    | nil =>
      cases h
      exact ⟨rfl, by simp⟩
    | cons =>
      simp only [items, eq_ok] at h
      obtain ⟨⟨child, next⟩, hchild, others, hothers, rfl⟩ := h
      obtain ⟨hb, hwithin⟩ := hread hchild
      obtain ⟨rfl, hall⟩ := ih hothers
      exact ⟨hb, forall_mem_cons.mpr ⟨hwithin, hall⟩⟩

/-- What is read is the canonical encoding of the item, in front of what is left. -/
theorem item_canonical {rest : Bytes} (h : item n b = .ok (i, rest)) :
    b = i.encode ++ rest ∧ Within n i := by
  induction n generalizing b i rest with
  | zero => cases h
  | succ n ih =>
    cases b with
    | nil => cases h
    | cons =>
      rw [item] at h
      split at h
      · rename_i hsmall
        cases h
        rw [Item.encode, writeBytes, if_pos ⟨rfl, hsmall⟩]
        exact ⟨rfl, .bytes _⟩
      · rename_i hfirst
        obtain ⟨⟨list, length, body⟩, hheader, h⟩ := bind_eq_ok.mp h
        have hbytes := header_eq_ok hfirst hheader
        rw [ite_error_eq_ok, not_lt] at h
        obtain ⟨hle, h⟩ := h
        have hlength : (body.take length).length = length := by
          rw [length_take]
          omega
        split at h
        · rename_i hlist
          rw [ite_error_eq_ok] at h
          obtain ⟨hsingle, h⟩ := h
          cases h
          rw [Item.encode, writeBytes, hlength, if_neg hsingle, append_assoc, take_append_drop,
            hbytes, if_neg (by simp [hlist])]
          exact ⟨rfl, .bytes _⟩
        · rename_i hlist
          obtain ⟨children, hitems, h⟩ := bind_eq_ok.mp h
          cases h
          obtain ⟨hcontent, hall⟩ := items_canonical ih hitems
          rw [Item.encode, writeList, ← hcontent, hlength, append_assoc, take_append_drop,
            hbytes, if_pos (by simpa using hlist)]
          exact ⟨rfl, .list hall⟩

def Consumes (read : Bytes → Except ProofError (Item × Bytes)) : Prop :=
  ∀ b child rest, read b = .ok (child, rest) → rest.length < b.length

theorem item_consumes (levels : ℕ) : Consumes (item levels) := by
  intro b child rest h
  have hpos := length_pos_iff.mpr (encode_ne_nil child)
  rw [(item_canonical h).1, length_append]
  omega

/-- The loop of the source: with a reader that consumes, fuel beyond the input changes nothing. -/
theorem items_fuel (hread : Consumes read) {fuel fuel' : ℕ} {b : Bytes} (h : b.length ≤ fuel)
    (h' : b.length ≤ fuel') : items read fuel b = items read fuel' b := by
  induction fuel generalizing b fuel' with
  | zero =>
    cases b with
    | nil => cases fuel' <;> rfl
    | cons => exact absurd h (Nat.not_succ_le_zero _)
  | succ fuel ih =>
    cases b with
    | nil => cases fuel' <;> rfl
    | cons first rest =>
      cases fuel' with
      | zero => exact absurd h' (Nat.not_succ_le_zero _)
      | succ fuel' =>
        rw [items, items]
        cases hchild : read (first :: rest) with
        | error => rfl
        | ok x =>
          obtain ⟨child, next⟩ := x
          have hlt := hread _ _ _ hchild
          change (items read fuel next >>= _) = (items read fuel' next >>= _)
          rw [ih (show next.length ≤ fuel by omega) (show next.length ≤ fuel' by omega)]

/-- The decoder takes the canonical encodings of items within its depth, and nothing else.  A length
prefix names one to eight bytes, so the byte that is looked at exists and the number fits. -/
theorem rlp_canonical :
    (∀ b i, decode b = .ok i → i.encode = b ∧ Within (maxDepth + 1) i) ∧
    (∀ i, Within (maxDepth + 1) i → i.encode.length < 256 ^ 8 → decode i.encode = .ok i ∧
      ∀ rest ≠ [], decode (i.encode ++ rest) =
        .error (.malformed "trailing bytes after RLP item")) ∧
    (∀ b b' i, decode b = .ok i → decode b' = .ok i → b = b') ∧
    (∀ first after list length body, ¬first < 0x80 →
      header first after = .ok (list, length, body) →
      first :: after = lengthBytes length (if list = true then 0xc0 else 0x80) ++ body) ∧
    (∀ byte < 0x80, ∀ rest, decode (0x81 :: byte :: rest) =
      .error (.malformed "non-canonical single-byte RLP")) ∧
    ∀ (first offset : UInt8) (after : Bytes), offset = 0xb7 ∧ first ≤ 0xbf ∨ offset = 0xf7 →
      offset < first → 0 < first.toNat - offset.toNat ∧
        value (after.take (first.toNat - offset.toNat)) < 2 ^ 64 := by
  have hdecode : ∀ b i, decode b = .ok i → i.encode = b ∧ Within (maxDepth + 1) i := by
    intro b i h
    simp only [decode, eq_ok, ne_eq, Classical.not_not] at h
    obtain ⟨⟨value, rest⟩, hitem, hrest, hvalue⟩ := h
    obtain ⟨hb, hwithin⟩ := item_canonical hitem
    subst hrest hvalue
    rw [append_nil] at hb
    exact ⟨hb.symm, hwithin⟩
  refine ⟨hdecode, ?_, ?_, fun _ _ _ _ _ => header_eq_ok, ?_, ?_⟩
  · intro i hwithin hlength
    have hencodes := hwithin.encodes hlength
    refine ⟨hencodes.decode le_rfl, fun rest hrest => ?_⟩
    rw [decode, hencodes _ rest le_rfl]
    exact if_pos hrest
  · intro b b' i h h'
    rw [← (hdecode b i h).1, (hdecode b' i h').1]
  · intro byte hbyte rest
    have hheader : header 0x81 (byte :: rest) = .ok (false, 1, byte :: rest) := rfl
    have hitem : item (maxDepth + 1) (0x81 :: byte :: rest) =
        .error (.malformed "non-canonical single-byte RLP") := by
      rw [item, if_neg (by decide), hheader]
      exact if_pos ⟨rfl, hbyte⟩
    rw [decode, hitem]
    rfl
  · intro first offset after hoffset hlt
    have hbound := first.toNat_lt
    rw [lt_iff_toNat_lt] at hlt
    refine ⟨by omega, (value_lt _).trans_le ?_⟩
    have hsize : (after.take (first.toNat - offset.toNat)).length ≤ 8 := by
      rcases hoffset with ⟨rfl, hfirst⟩ | rfl
      · rw [le_iff_toNat_le] at hfirst
        simp at hfirst ⊢
        omega
      · simp
        omega
    exact Nat.pow_le_pow_right (by decide) hsize

end Rlp

end QuaiSdk.Provider
