import QuaiSdk.Lib.Result
import Mathlib.Tactic.Ring
import Mathlib.Tactic.Linarith

/-!
# Protobuf wire format

Base-128 varints, tagged fields and messages.  A message type gives its default, the fields it writes
in ascending tag order and how one field is merged into it; decoding parses the fields and merges
them in order, so that a message that restores itself from its own fields round-trips through bytes.
Group markers are not read: they are refused like the unassigned wire types.
-/

namespace Wire

open List

abbrev Octets := List UInt8

/-- At most `rounds` groups of seven bits, least significant first. -/
def writeVarintIn : ℕ → ℕ → Octets
  | 0, _ => []
  | rounds + 1, n =>
    if n < 128 then [UInt8.ofNat n]
    else UInt8.ofNat (n % 128 + 128) :: writeVarintIn rounds (n / 128)

def writeVarint (n : ℕ) : Octets := writeVarintIn 10 n

def readVarintIn : ℕ → ℕ → ℕ → Octets → Option (ℕ × Octets)
  | 0, _, _, _ => none
  | _ + 1, _, _, [] => none
  | rounds + 1, shift, n, b :: rest =>
    -- the tenth byte holds the last bit of 64
    if shift = 63 ∧ 1 < b.toNat then none
    else
      let n := n + b.toNat % 128 * 2 ^ shift
      if b.toNat < 128 then some (n, rest) else readVarintIn rounds (shift + 7) n rest

def readVarint (bytes : Octets) : Option (ℕ × Octets) := readVarintIn 10 0 0 bytes

private theorem toNat_ofNat_of_lt {n : ℕ} (h : n < 256) : (UInt8.ofNat n).toNat = n := by
  simp [Nat.mod_eq_of_lt h]

theorem readVarintIn_write (rounds shift : ℕ) {n : ℕ} (acc : ℕ) (rest : Octets)
    (hshift : shift + 7 * rounds = 70) (hrounds : 0 < rounds) (hn : n * 2 ^ shift < 2 ^ 64) :
    readVarintIn rounds shift acc (writeVarintIn rounds n ++ rest) =
      some (acc + n * 2 ^ shift, rest) := by
  induction rounds generalizing shift n acc with
  | zero => omega
  | succ rounds ih =>
    -- at shift 63 only one bit is left
    have hlast : shift = 63 → n < 2 := by
      rintro rfl
      by_contra hge
      omega
    unfold writeVarintIn
    by_cases hsmall : n < 128
    · have hbyte : (UInt8.ofNat n).toNat = n := toNat_ofNat_of_lt (by omega)
      have hbit : ¬(shift = 63 ∧ 1 < n) := fun h => by
        omega
      simp only [if_pos hsmall, cons_append, nil_append, readVarintIn, hbyte,
        if_neg hbit, Nat.mod_eq_of_lt hsmall]
    · have hbyte : (UInt8.ofNat (n % 128 + 128)).toNat = n % 128 + 128 :=
        toNat_ofNat_of_lt (by omega)
      have hne : shift ≠ 63 := fun h => by
        omega
      have hmod : (n % 128 + 128) % 128 = n % 128 := by omega
      have hsplit : n % 128 * 2 ^ shift + n / 128 * 2 ^ (shift + 7) = n * 2 ^ shift := by
        rw [Nat.pow_add, show (2 : ℕ) ^ 7 = 128 from rfl]
        calc n % 128 * 2 ^ shift + n / 128 * (2 ^ shift * 128)
            = (n % 128 + 128 * (n / 128)) * 2 ^ shift := by ring
          _ = n * 2 ^ shift := by rw [Nat.mod_add_div]
      have hrounds' : 0 < rounds := by
        rcases Nat.eq_zero_or_pos rounds with rfl | h
        · exact absurd (by omega) hne
        · exact h
      simp only [if_neg hsmall, cons_append, readVarintIn, hbyte, hne, false_and, if_false,
        hmod, if_neg (show ¬n % 128 + 128 < 128 by omega)]
      rw [ih _ _ (by omega) hrounds' (by omega)]
      congr 2
      omega

theorem readVarint_write {n : ℕ} (hn : n < 2 ^ 64) (rest : Octets) :
    readVarint (writeVarint n ++ rest) = some (n, rest) := by
  have h := readVarintIn_write 10 0 (n := n) 0 rest rfl (by decide) (by omega)
  rw [Nat.zero_add, Nat.pow_zero, Nat.mul_one] at h
  exact h

theorem writeVarint_ne_nil (n : ℕ) : writeVarint n ≠ [] := by
  unfold writeVarint writeVarintIn
  split <;> simp

inductive Value where
  | varint (n : ℕ)
  | fixed64 (bytes : Octets)
  | bytes (bytes : Octets)
  | fixed32 (bytes : Octets)
  deriving DecidableEq

structure Field where
  tag : ℕ
  value : Value
  deriving DecidableEq

def Value.wireType : Value → ℕ
  | .varint _ => 0
  | .fixed64 _ => 1
  | .bytes _ => 2
  | .fixed32 _ => 5

def Value.write : Value → Octets
  | .varint n => writeVarint n
  | .fixed64 b => b
  | .bytes b => writeVarint b.length ++ b
  | .fixed32 b => b

def Field.write (f : Field) : Octets := writeVarint (f.tag * 8 + f.value.wireType) ++ f.value.write

def writeFields (fs : List Field) : Octets := fs.flatMap Field.write

/-- `n` bytes and what follows them. -/
def splitBytes (n : ℕ) (bytes : Octets) : Option (Octets × Octets) :=
  if n ≤ bytes.length then some (bytes.take n, bytes.drop n) else none

theorem splitBytes_append (front rest : Octets) :
    splitBytes front.length (front ++ rest) = some (front, rest) := by
  simp [splitBytes]

def readValue (wireType : ℕ) (bytes : Octets) : Option (Value × Octets) :=
  match wireType with
  | 0 => do
    let (n, rest) ← readVarint bytes
    some (.varint n, rest)
  | 1 => do
    let (part, rest) ← splitBytes 8 bytes
    some (.fixed64 part, rest)
  | 2 => do
    let (len, rest) ← readVarint bytes
    let (part, rest) ← splitBytes len rest
    some (.bytes part, rest)
  | 5 => do
    let (part, rest) ← splitBytes 4 bytes
    some (.fixed32 part, rest)
  | _ => none

def readField (bytes : Octets) : Option (Field × Octets) := do
  let (key, rest) ← readVarint bytes
  if 2 ^ 32 ≤ key ∨ key / 8 = 0 then none
  else
    let (value, rest) ← readValue (key % 8) rest
    some (⟨key / 8, value⟩, rest)

/-- At most `fuel` fields. -/
def parseIn : ℕ → Octets → Option (List Field)
  | _, [] => some []
  | 0, _ :: _ => none
  | fuel + 1, b :: bytes => do
    let (f, rest) ← readField (b :: bytes)
    let fs ← parseIn fuel rest
    some (f :: fs)

/-- All fields of a message; every field takes at least one byte. -/
def parse (bytes : Octets) : Option (List Field) := parseIn bytes.length bytes

/-- A value an encoder writes: only varints and length-delimited bytes. -/
def Value.Plain : Value → Prop
  | .varint n => n < 2 ^ 64
  | .bytes _ => True
  | _ => False

structure Field.Plain (f : Field) : Prop where
  pos : 0 < f.tag
  lt : f.tag < 2 ^ 29
  value : f.value.Plain

theorem Field.write_ne_nil (f : Field) : f.write ≠ [] := by
  simp [Field.write, writeVarint_ne_nil]

theorem Value.wireType_lt (v : Value) : v.wireType < 8 := by
  cases v <;> simp [Value.wireType]

theorem readValue_write {v : Value} (hplain : v.Plain) (hlen : v.write.length < 2 ^ 64)
    (rest : Octets) : readValue v.wireType (v.write ++ rest) = some (v, rest) := by
  cases v with
  | varint =>
    simp only [Value.wireType, Value.write, readValue]
    rw [readVarint_write hplain]
    rfl
  | bytes b =>
    have hb : b.length < 2 ^ 64 := by
      rw [Value.write, length_append] at hlen
      omega
    simp only [Value.wireType, Value.write, readValue, append_assoc]
    rw [readVarint_write hb]
    simp only [Option.bind_eq_bind, Option.bind_some]
    rw [splitBytes_append]
    rfl
  | fixed64 | fixed32 => exact absurd hplain id

variable {f : Field} {fs : List Field} {tag : ℕ} {β α : Type} {merge : α → Field → Option α} {a : α}
  {groups : List (List Field)}

theorem readVarint_writeField (hplain : f.Plain) (rest : Octets) : readVarint (f.write ++ rest) =
      some (f.tag * 8 + f.value.wireType, f.value.write ++ rest) := by
  have htype := f.value.wireType_lt
  have hlt := hplain.lt
  rw [Field.write, append_assoc, readVarint_write (by omega)]

theorem key_div (f : Field) : (f.tag * 8 + f.value.wireType) / 8 = f.tag := by
  have := f.value.wireType_lt
  omega

theorem key_mod (f : Field) : (f.tag * 8 + f.value.wireType) % 8 = f.value.wireType := by
  have := f.value.wireType_lt
  omega

theorem Field.length_value_le (f : Field) : f.value.write.length ≤ f.write.length := by
  rw [Field.write, length_append]
  omega

theorem readField_write (hplain : f.Plain) (hlen : f.write.length < 2 ^ 64)
    (rest : Octets) : readField (f.write ++ rest) = some (f, rest) := by
  have htype := f.value.wireType_lt
  have hpos := hplain.pos
  have hlt := hplain.lt
  have hkey : ¬(2 ^ 32 ≤ f.tag * 8 + f.value.wireType ∨ f.tag = 0) := by omega
  unfold readField
  rw [readVarint_writeField hplain]
  simp only [Option.bind_eq_bind, Option.bind_some, key_div, key_mod, if_neg hkey]
  rw [readValue_write hplain.value (lt_of_le_of_lt f.length_value_le hlen)]
  rfl

theorem length_le_writeFields (fs : List Field) : fs.length ≤ (writeFields fs).length := by
  induction fs with
  | nil => exact Nat.zero_le _
  | cons f fs ih =>
    have := length_pos_of_ne_nil f.write_ne_nil
    rw [writeFields, flatMap_cons, length_append, length_cons]
    rw [writeFields] at ih
    omega

theorem parseIn_write (fuel : ℕ) (hfuel : fs.length ≤ fuel)
    (hplain : ∀ f ∈ fs, f.Plain) (hlen : (writeFields fs).length < 2 ^ 64) :
    parseIn fuel (writeFields fs) = some fs := by
  induction fs generalizing fuel with
  | nil => cases fuel <;> rfl
  | cons f fs ih =>
    rw [writeFields, flatMap_cons, length_append] at hlen
    rw [length_cons] at hfuel
    obtain ⟨fuel, rfl⟩ : ∃ k, fuel = k + 1 := ⟨fuel - 1, by omega⟩
    have hread := readField_write (hplain f mem_cons_self) (by omega) (writeFields fs)
    have hrest := ih fuel (by omega) (forall_mem_cons.mp hplain).2 (by rw [writeFields]; omega)
    rw [writeFields, flatMap_cons]
    rw [writeFields] at hread hrest
    obtain ⟨b, bs, hb⟩ := exists_cons_of_ne_nil f.write_ne_nil
    rw [hb, cons_append] at hread ⊢
    rw [parseIn, hread]
    simp only [Option.bind_eq_bind, Option.bind_some, hrest]

theorem parse_write (hplain : ∀ f ∈ fs, f.Plain)
    (hlen : (writeFields fs).length < 2 ^ 64) : parse (writeFields fs) = some fs :=
  parseIn_write _ (length_le_writeFields fs) hplain hlen

/-- A message type: its default, what it writes and how a parsed field is merged. -/
structure Message (α : Type) where
  default : α
  fields : α → List Field
  merge : α → Field → Option α

namespace Message

variable {α β : Type}

def encode (M : Message α) (a : α) : Octets := writeFields (M.fields a)

def mergeBytes (M : Message α) (a : α) (bytes : Octets) : Option α := do
  let fs ← parse bytes
  fs.foldlM M.merge a

def decode (M : Message α) (bytes : Octets) : Option α := M.mergeBytes M.default bytes

/-- What makes a message type round-trip: it writes plain fields and merging them restores it, as
long as the encoding is of a length that fits its own prefixes. -/
structure RoundTrips (M : Message α) : Prop where
  plain : ∀ a, ∀ f ∈ M.fields a, f.Plain
  restore : ∀ a, (M.encode a).length < 2 ^ 64 → (M.fields a).foldlM M.merge M.default = some a

theorem RoundTrips.decode_encode {M : Message α} (h : M.RoundTrips) {a : α}
    (hlen : (M.encode a).length < 2 ^ 64) : M.decode (M.encode a) = some a := by
  unfold decode mergeBytes
  rw [encode, parse_write (h.plain a) hlen]
  exact h.restore a hlen

end Message

def optional (tag : ℕ) (x : Option Value) : List Field := x.toList.map fun v => ⟨tag, v⟩

def repeated {β : Type} (tag : ℕ) (M : Message β) (xs : List β) : List Field :=
  xs.map fun x => ⟨tag, .bytes (M.encode x)⟩

theorem plain_optional {x : Option Value} (hpos : 0 < tag) (hlt : tag < 2 ^ 29)
    (hx : ∀ v ∈ x, v.Plain) (hf : f ∈ optional tag x) : f.Plain := by
  obtain ⟨v, hv, rfl⟩ := mem_map.mp hf
  exact ⟨hpos, hlt, hx v (Option.mem_toList.mp hv)⟩

theorem plain_repeated {M : Message β} {xs : List β} (hpos : 0 < tag)
    (hlt : tag < 2 ^ 29) (hf : f ∈ repeated tag M xs) : f.Plain := by
  obtain ⟨x, -, rfl⟩ := mem_map.mp hf
  exact ⟨hpos, hlt, trivial⟩

/-- A field that is omitted when its bytes are empty. -/
def unlessEmpty {α : Type*} (b : Octets) (field : α) : List α := if b = [] then [] else [field]

def implicitBytes (tag : ℕ) (b : Octets) : List Field := unlessEmpty b ⟨tag, .bytes b⟩

theorem plain_implicitBytes {b : Octets} (hpos : 0 < tag) (hlt : tag < 2 ^ 29)
    (hf : f ∈ implicitBytes tag b) : f.Plain := by
  unfold implicitBytes unlessEmpty at hf
  split at hf
  · cases hf
  · rw [mem_singleton.mp hf]
    exact ⟨hpos, hlt, trivial⟩

theorem foldlM_implicitBytes (put : Octets → α) (b : Octets) (hempty : put [] = a)
    (hmerge : merge a ⟨tag, .bytes b⟩ = some (put b)) :
    (implicitBytes tag b).foldlM merge a = some (put b) := by
  unfold implicitBytes unlessEmpty
  split
  · rename_i h
    rw [h, hempty]
    rfl
  · rw [foldlM_cons, hmerge]
    rfl

theorem foldlM_flatten_cons {r : α}
    {group : List Field} (b : α)
    (hgroup : group.foldlM merge a = some b) (hrest : groups.flatten.foldlM merge b = some r) :
    (group :: groups).flatten.foldlM merge a = some r := by
  rw [flatten_cons, foldlM_append, hgroup]
  exact hrest

theorem foldlM_optional_cons {r : α} {wire : β → Value}
    (put : Option β → α) (x : Option β) (hnone : put none = a)
    (hsome : ∀ b, x = some b → merge a ⟨tag, wire b⟩ = some (put (some b)))
    (hrest : groups.flatten.foldlM merge (put x) = some r) :
    (optional tag (x.map wire) :: groups).flatten.foldlM merge a = some r := by
  refine foldlM_flatten_cons (put x) ?_ hrest
  cases x with
  | none => rw [hnone]; rfl
  | some b =>
    simp only [optional, Option.map_some, Option.toList_some, map_cons, map_nil,
      foldlM_cons, hsome b rfl]
    rfl

theorem Message.RoundTrips.foldlM_cons {M : Message β} (h : M.RoundTrips) {r : α}
    (put : Option β → α) (x : Option β)
    (hlen : ∀ m, x = some m → (M.encode m).length < 2 ^ 64) (hnone : put none = a)
    (hmerge : ∀ b, merge a ⟨tag, .bytes b⟩ = (M.decode b).map fun m => put (some m))
    (hrest : groups.flatten.foldlM merge (put x) = some r) :
    (optional tag (x.map fun m => .bytes (M.encode m)) :: groups).flatten.foldlM merge a =
      some r := by
  refine foldlM_optional_cons put x hnone (fun m hm => ?_) hrest
  rw [hmerge, h.decode_encode (hlen m hm), Option.map_some]

theorem foldlM_repeated {M : Message β} (put : List β → α) (xs : List β)
    (hstep : ∀ done x, x ∈ xs → merge (put done) ⟨tag, .bytes (M.encode x)⟩ =
      some (put (done ++ [x]))) (done : List β) :
    (repeated tag M xs).foldlM merge (put done) = some (put (done ++ xs)) := by
  induction xs generalizing done with
  | nil => simp [repeated]
  | cons x xs ih =>
    rw [repeated, map_cons, foldlM_cons, hstep done x mem_cons_self]
    have hrest := ih (fun d y hy => hstep d y (mem_cons_of_mem _ hy)) (done ++ [x])
    rw [append_assoc] at hrest
    exact hrest

theorem length_part_le {b : Octets} (h : ⟨tag, .bytes b⟩ ∈ fs) :
    b.length ≤ (writeFields fs).length := by
  induction fs with
  | nil => cases h
  | cons f fs ih =>
    rw [writeFields, flatMap_cons, length_append]
    rcases mem_cons.mp h with rfl | h
    · simp only [Field.write, Value.write, length_append]
      omega
    · have := ih h
      rw [writeFields] at this
      omega

theorem part_lt (tag : ℕ) {b : Octets} (hlen : (writeFields fs).length < 2 ^ 64)
    (h : ⟨tag, .bytes b⟩ ∈ fs) : b.length < 2 ^ 64 :=
  lt_of_le_of_lt (length_part_le h) hlen

theorem Message.RoundTrips.repeated {L : Message α} {M : Message β} (h : M.RoundTrips) {tag : ℕ}
    (put : List β → α) (get : α → List β) (hpos : 0 < tag) (hlt : tag < 2 ^ 29)
    (hfields : ∀ l, L.fields l = repeated tag M (get l)) (hget : ∀ l, put (get l) = l)
    (hdefault : L.default = put [])
    (hmerge : ∀ done b, L.merge (put done) ⟨tag, .bytes b⟩ =
      (M.decode b).map fun x => put (done ++ [x])) : L.RoundTrips where
  plain l f hf := by
    rw [hfields] at hf
    exact plain_repeated hpos hlt hf
  restore l hlen := by
    rw [Message.encode, hfields] at hlen
    have hstep : ∀ done x, x ∈ get l → L.merge (put done) ⟨tag, .bytes (M.encode x)⟩ =
        some (put (done ++ [x])) := by
      intro done x hx
      rw [hmerge, h.decode_encode (part_lt tag hlen (mem_map_of_mem hx)), Option.map_some]
    rw [hfields, hdefault, foldlM_repeated put (get l) hstep, nil_append, hget]

end Wire
