import Mathlib.Algebra.Order.BigOperators.Group.List
import QuaiSdk.Abi.Bijection

/-!
# Default values

`typed_value.rs`: the text and the encoding of the zero value of a type are measured on the type,
before the value is built.
-/

namespace QuaiSdk.Abi

open Result HeadTail List

/-- `"0x"` and `"00".repeat(n)`. -/
def zeroHex (n : ℕ) : String := "0x" ++ String.join (replicate n "00")

mutual

def defaultValue : AbiType → Json
  | .bool => .bool false
  | .int _ _ => .string "0"
  | .string => .string ""
  | .bytes => .string "0x"
  | .address => .string (zeroHex 20)
  | .fixedBytes n => .string (zeroHex n)
  | .array child (some n) => .array (replicate n (defaultValue child))
  | .array _ none => .array []
  | .tuple fields => .array (defaultFields fields)

def defaultFields : List AbiType → List Json
  | [] => []
  | ty :: types => defaultValue ty :: defaultFields types

end

section

variable (overflow : AbiError)

/-- A checked operation on `usize`.  On overflow the source returns `AbiError::Limit`, which is left
open here to tell it from the limits. -/
def checked (n : ℕ) : Except AbiError ℕ := if n < 2 ^ 64 then .ok n else .error overflow

variable (leaf : AbiType → ℕ) (entry : AbiType → ℕ → Except AbiError ℕ)

mutual

/-- What `default_text_size` and `default_body_size` share. -/
def predictedSize : AbiType → Except AbiError ℕ
  | .array child (some n) =>
    if n = 0 then checkedSize 0
    else do
      let size ← predictedSize child
      let size ← entry child size
      let size ← checked overflow (size * n)
      checkedSize size
  | .tuple fields => do
    let size ← predictedSizes fields 0
    checkedSize size
  | ty => checkedSize (leaf ty)

def predictedSizes : List AbiType → ℕ → Except AbiError ℕ
  | [], sum => .ok sum
  | ty :: types, sum => do
    let size ← predictedSize ty
    let size ← entry ty size
    let sum ← checked overflow (sum + size)
    predictedSizes types sum

end

def textLeaf : AbiType → ℕ
  | .int _ _ => 1
  | .address => 42
  | .bytes => 2
  | .fixedBytes n => 2 + 2 * n
  | _ => 0

def defaultTextSize : AbiType → Except AbiError ℕ :=
  predictedSize overflow textLeaf fun _ size => .ok size

def offsetSize (ty : AbiType) : ℕ := if ty.metadata.dynamic = true then 32 else 0

def defaultBodySize : AbiType → Except AbiError ℕ :=
  predictedSize overflow (fun _ => 32) fun ty size => checked overflow (size + offsetSize ty)

/-- One round of the loop of `default_values`, on the totals of text and encoding. -/
def addDefault (totals : ℕ × ℕ) (ty : AbiType) : Except AbiError (ℕ × ℕ) := do
  let size ← defaultTextSize overflow ty
  let text ← checked overflow (totals.1 + size)
  let size ← defaultBodySize overflow ty
  let encoded ← checked overflow (totals.2 + size)
  let encoded ← checked overflow (encoded + offsetSize ty)
  if maxDataBytes < text ∨ maxDataBytes < encoded then .error .limit else .ok (text, encoded)

def defaultValues (types : List AbiType) : Except AbiError (List Json) := do
  sequenceLimit types
  let _ ← types.foldlM (addDefault overflow) (0, 0)
  .ok (types.map defaultValue)

end

mutual

/-- The size that is predicted, without limits. -/
def totalSize (leaf extra : AbiType → ℕ) : AbiType → ℕ
  | .array child (some n) => n * (totalSize leaf extra child + extra child)
  | .tuple fields => totalSizes leaf extra fields
  | ty => leaf ty

def totalSizes (leaf extra : AbiType → ℕ) : List AbiType → ℕ
  | [] => 0
  | ty :: types => totalSize leaf extra ty + extra ty + totalSizes leaf extra types

end

def textSize : AbiType → ℕ := totalSize textLeaf fun _ => 0

def textSizes : List AbiType → ℕ := totalSizes textLeaf fun _ => 0

def bodySize : AbiType → ℕ := totalSize (fun _ => 32) offsetSize

def bodySizes : List AbiType → ℕ := totalSizes (fun _ => 32) offsetSize

variable {types : List AbiType} {ty : AbiType} {overflow : AbiError}

theorem checked_of_lt {n : ℕ} (h : n < 2 ^ 64) : checked overflow n = .ok n := if_pos h

section

variable {leaf extra : AbiType → ℕ} {entry : AbiType → ℕ → Except AbiError ℕ}

theorem totalSizes_eq_sum : totalSizes leaf extra types =
    (types.map fun ty => totalSize leaf extra ty + extra ty).sum := by
  induction types with
  | nil => rfl
  | cons ty types ih => rw [totalSizes, ih, map_cons, sum_cons]

theorem totalSizes_replicate (n : ℕ) (ty : AbiType) :
    totalSizes leaf extra (replicate n ty) = n * (totalSize leaf extra ty + extra ty) := by
  rw [totalSizes_eq_sum, sum_replicate_head]

theorem totalSize_le (h : ty ∈ types) : totalSize leaf extra ty ≤ totalSizes leaf extra types := by
  rw [totalSizes_eq_sum]
  exact (Nat.le_add_right _ _).trans (le_sum_of_mem (mem_map_of_mem h))

/-- What an entry adds to its size. -/
def Adds (entry : AbiType → ℕ → Except AbiError ℕ) (extra : AbiType → ℕ) : Prop :=
  ∀ ty, extra ty ≤ 32 ∧ ∀ n ≤ maxDataBytes, entry ty n = .ok (n + extra ty)

variable (hentry : Adds entry extra)
include hentry

theorem predictedSizes_eq {sum : ℕ} (hsum : sum + types.length * 2 ^ 21 < 2 ^ 64)
    (h : ∀ ty ∈ types, predictedSize overflow leaf entry ty =
      checkedSize (totalSize leaf extra ty)) :
    (predictedSizes overflow leaf entry types sum >>= checkedSize) =
      checkedSize (sum + totalSizes leaf extra types) := by
  have hmax : maxDataBytes = 2 ^ 20 := rfl
  induction types generalizing sum with
  | nil => rfl
  | cons ty types ih =>
    obtain ⟨hself, hrest⟩ := forall_mem_cons.mp h
    rw [predictedSizes, totalSizes, hself]
    rw [length_cons] at hsum
    by_cases hlimit : maxDataBytes < totalSize leaf extra ty
    · rw [checkedSize, if_pos hlimit, checkedSize, if_pos (by omega)]
      rfl
    · obtain ⟨hextra, hadds⟩ := hentry ty
      rw [checkedSize, if_neg hlimit, ok_bind, hadds _ (not_lt.mp hlimit), ok_bind,
        checked_of_lt (by omega), ok_bind, ih (by omega) hrest, Nat.add_assoc sum]

/-- The prediction is the size, if that is within the limit: no operation overflows, and no part is
over the limit unless the whole is. -/
theorem predictedSize_eq (hty : ty.Valid) :
    predictedSize overflow leaf entry ty = checkedSize (totalSize leaf extra ty) := by
  have hmax : maxDataBytes = 2 ^ 20 := rfl
  induction ty with
  | array child length ih =>
    cases length with
    | none => rfl
    | some n =>
      cases hty with
      | array hchild hlimited =>
      have hn : n ≤ 2 ^ 15 := hlimited.1 n rfl
      rw [predictedSize, totalSize, ih hchild]
      by_cases hzero : n = 0
      · rw [if_pos hzero, hzero, Nat.zero_mul]
      · rw [if_neg hzero]
        obtain ⟨hextra, hadds⟩ := hentry child
        have hle := Nat.le_mul_of_pos_left (totalSize leaf extra child + extra child)
          (Nat.pos_of_ne_zero hzero)
        by_cases hlimit : maxDataBytes < totalSize leaf extra child
        · rw [checkedSize, if_pos hlimit, checkedSize, if_pos (by omega)]
          rfl
        · have hproduct : (totalSize leaf extra child + extra child) * n ≤ 2 ^ 21 * 2 ^ 15 :=
            Nat.mul_le_mul (by omega) hn
          rw [checkedSize, if_neg hlimit, ok_bind, hadds _ (not_lt.mp hlimit), ok_bind,
            checked_of_lt (by omega), ok_bind, Nat.mul_comm]
  | tuple fields ih =>
    cases hty with
    | tuple hfields hlimited =>
    have hlength : fields.length ≤ 1024 := hlimited.1
    rw [predictedSize, totalSize,
      predictedSizes_eq hentry (by omega) fun ty hmem => ih ty hmem (hfields ty hmem),
      Nat.zero_add]
  | _ => rfl

end

theorem textSizes_cons : textSizes (ty :: types) = textSize ty + textSizes types := rfl

theorem bodySizes_cons :
    bodySizes (ty :: types) = bodySize ty + offsetSize ty + bodySizes types := rfl

theorem defaultTextSize_eq (hty : ty.Valid) :
    defaultTextSize overflow ty = checkedSize (textSize ty) :=
  predictedSize_eq (fun _ => ⟨Nat.zero_le _, fun _ _ => rfl⟩) hty

theorem offsetSize_le (ty : AbiType) : offsetSize ty ≤ 32 := by
  unfold offsetSize
  split <;> omega

theorem defaultBodySize_eq (hty : ty.Valid) :
    defaultBodySize overflow ty = checkedSize (bodySize ty) := by
  refine predictedSize_eq (fun ty => ⟨offsetSize_le ty, fun n hn => checked_of_lt ?_⟩) hty
  have hmax : maxDataBytes = 2 ^ 20 := rfl
  have := offsetSize_le ty
  omega

theorem zeroHex_eq (n : ℕ) : zeroHex n = toHex (zeros n) := by
  have hdigits : (replicate n "00").flatMap String.toList =
      (hexBytes (zeros n)).map fun b => Char.ofNat b.toNat := by
    rw [hexBytes, zeros, map_flatMap]
    induction n with
    | zero => rfl
    | succ n ih =>
      rw [replicate_succ, replicate_succ, flatMap_cons, flatMap_cons, ih]
      rfl
  rw [← String.toList_inj, zeroHex, String.toList_append, String.toList_join, hdigits, toHex,
    asciiText, String.toList_ofList, String.toList_ofList]
  rfl

/-- The digits of the zero address have no case. -/
theorem toText_zero (keccak256 : Bytes → Hash32) :
    Address.toText keccak256 ⟨zeros 20, rfl⟩ = zeroHex 20 := by
  have hdigits : Address.checksumDigits keccak256 ⟨zeros 20, rfl⟩ = replicate 40 0x30 := by
    rw [eq_replicate_iff]
    refine ⟨Address.length_checksumDigits .., fun c hc => ?_⟩
    obtain ⟨i, hi, rfl⟩ := getElem_of_mem hc
    have hzero : ∀ (j : ℕ) (hj : j < (hexBytes (zeros 20)).length),
        (hexBytes (zeros 20))[j] = 0x30 := by decide
    simp only [Address.checksumDigits, getElem_zipWith, hzero]
    split <;> rfl
  rw [Address.toText, hdigits]
  decide

section

variable (keccak256 : Bytes → Hash32)

structure IsDefault (ty : AbiType) (value : Json) : Prop where
  canonical : Canonical keccak256 ty value
  nodes : nodes value = ty.metadata.minimumNodes
  text : textBytes value = textSize ty
  encoded : ∃ bytes, Encodes keccak256 ty value bytes ∧ bytes.length = bodySize ty

variable {keccak256}

theorem defaultFields_eq_map (types : List AbiType) :
    defaultFields types = types.map defaultValue := by
  induction types with
  | nil => rfl
  | cons ty types ih => rw [defaultFields, ih, map_cons]

theorem defaults_sequence (h : ∀ ty ∈ types, IsDefault keccak256 ty (defaultValue ty)) :
    Canonicals keccak256 types (types.map defaultValue) ∧
      nodesAll (types.map defaultValue) = (types.map fun ty => ty.metadata.minimumNodes).sum ∧
      textBytesAll (types.map defaultValue) = textSizes types ∧
      ∃ parts, EncodesAll keccak256 types (types.map defaultValue) parts ∧
        (layout parts).length = bodySizes types := by
  induction types with
  | nil => exact ⟨trivial, rfl, rfl, [], .nil, rfl⟩
  | cons ty types ih =>
    obtain ⟨hself, hrest⟩ := forall_mem_cons.mp h
    obtain ⟨hcanonical, hnodes, htext, parts, hparts, hlength⟩ := ih hrest
    obtain ⟨bytes, hbytes, hsize⟩ := hself.encoded
    simp only [map_cons, sum_cons]
    refine ⟨⟨hself.canonical, hcanonical⟩, ?_, ?_, _, .cons hbytes hparts, ?_⟩
    · rw [nodesAll, hself.nodes, hnodes]
    · rw [textBytesAll, hself.text, htext, textSizes_cons]
    · rw [length_layout_cons, hlength, hsize]
      rfl

theorem IsDefault.word {word : Bytes} {value : Json} (hty : ty.Valid)
    (hcanonical : Canonical keccak256 ty value)
    (hword : primitiveWord keccak256 ty value = .ok word)
    (htext : textBytes value = textSize ty) : IsDefault keccak256 ty value := by
  obtain ⟨hlength, hmeta⟩ := primitiveWord_eq_ok hty hword
  refine ⟨hcanonical, ?_, htext, word, .word hword, hlength.trans ?_⟩
  · rw [(primitiveWord_leaf hword).1, hmeta]
    rfl
  · cases hty <;> first | rfl | cases hword

theorem defaultValue_isDefault (hty : ty.Valid) : IsDefault keccak256 ty (defaultValue ty) := by
  induction ty with
  | array child length ih =>
    cases hty with
    | array hchild =>
    have hself := ih hchild
    cases length with
    | none =>
      refine ⟨⟨[], rfl, nofun⟩, ?_, rfl, _, @Encodes.array _ _ _ [] [] nofun .nil, rfl⟩
      show 1 = 1 + 0 * _
      rw [Nat.zero_mul]
    | some n =>
      obtain ⟨-, hnodes, htext, parts, hparts, hlength⟩ :=
        @defaults_sequence (replicate n child) keccak256 fun ty hmem =>
          eq_of_mem_replicate hmem ▸ hself
      rw [map_replicate] at hnodes htext hparts
      rw [sum_replicate_head] at hnodes
      have hitems : (replicate n (defaultValue child)).length = n := length_replicate
      rw [defaultValue]
      refine ⟨⟨_, rfl, fun item hmem => eq_of_mem_replicate hmem ▸ hself.canonical⟩, ?_, ?_, _,
        .array (by simp [hitems]) (by rwa [hitems]), hlength.trans (totalSizes_replicate _ _)⟩
      · rw [nodes_array, hnodes, AbiType.metadata_array]
        rfl
      · exact htext.trans (totalSizes_replicate _ _)
  | tuple fields ih =>
    cases hty with
    | tuple hfields =>
    obtain ⟨hcanonical, hnodes, htext, parts, hparts, hlength⟩ :=
      defaults_sequence fun ty hmem => ih ty hmem (hfields ty hmem)
    rw [← defaultFields_eq_map] at hcanonical hnodes htext hparts
    rw [defaultValue]
    refine ⟨⟨_, rfl, hcanonical⟩, ?_, htext, _, .tuple hparts, hlength⟩
    rw [nodes_array, hnodes, AbiType.metadata_tuple]
    show _ = 1 + ((fields.map AbiType.metadata).map Metadata.minimumNodes).sum
    rw [map_map]
    rfl
  | bool => exact .word hty ⟨false, rfl⟩ rfl rfl
  | int signed bits =>
    cases hty with
    | int hbits =>
    have hzero : "0" = asciiText (decimalInt 0) := by decide
    have hword : integer (.string "0") signed bits = .ok (integerWord 0) := by
      rw [hzero, integer_decimalInt hbits.2.1]
      exact ⟨Nat.two_pow_pos _, rfl⟩
    exact .word (.int hbits) ⟨0, congrArg _ hzero⟩ hword rfl
  | address =>
    have hword : primitiveWord keccak256 .address (.string (zeroHex 20)) =
        .ok (zeros 12 ++ zeros 20) := by
      rw [← toText_zero keccak256]
      show (okOr (some _) _ >>= _) = _
      rw [okOr_some, ok_bind, Address.parse_toText]
      rfl
    exact .word hty ⟨_, congrArg _ (toText_zero keccak256).symm⟩ hword rfl
  | fixedBytes n =>
    cases hty with
    | fixedBytes hn =>
    have hmax : n ≤ maxDataBytes := hn.2.trans (by decide)
    have hlength : (zeros n).length = n := length_replicate
    have hword : primitiveWord keccak256 (.fixedBytes n) (.string (toHex (zeros n))) =
        .ok (zeros n ++ zeros (32 - n)) := by
      show (okOr (decodeBytes _) _ >>= _) = _
      rw [decodeBytes_toHex, if_neg (by omega), okOr_some, ok_bind, if_neg (not_not.mpr hlength)]
    rw [defaultValue, zeroHex_eq]
    refine .word (.fixedBytes hn) ⟨_, rfl⟩ hword ?_
    rw [textBytes_string, length_toHex, hlength, Nat.mul_comm, Nat.add_comm]
    rfl
  | bytes =>
    have hempty : "0x" = toHex [] := by decide
    rw [defaultValue, hempty]
    exact ⟨⟨_, rfl⟩, rfl, rfl, _, .bytes (decodeBytes_toHex []), rfl⟩
  | string => exact ⟨⟨_, rfl⟩, rfl, rfl, _, .string, rfl⟩

/-- The rounds of `default_values` pass while the totals are within the limit. -/
theorem foldlM_addDefault (htypes : ∀ ty ∈ types, ty.Valid) {text encoded : ℕ}
    (htext : text ≤ maxDataBytes) (hencoded : encoded ≤ maxDataBytes) :
    types.foldlM (addDefault overflow) (text, encoded) =
      if maxDataBytes < text + textSizes types ∨ maxDataBytes < encoded + bodySizes types then
        .error .limit
      else .ok (text + textSizes types, encoded + bodySizes types) := by
  have hmax : maxDataBytes = 2 ^ 20 := rfl
  induction types generalizing text encoded with
  | nil => exact (if_neg (not_or.mpr ⟨not_lt.mpr htext, not_lt.mpr hencoded⟩)).symm
  | cons ty types ih =>
    obtain ⟨hty, hrest⟩ := forall_mem_cons.mp htypes
    have hoffset := offsetSize_le ty
    rw [textSizes_cons, bodySizes_cons, foldlM_cons, addDefault, defaultTextSize_eq hty,
      defaultBodySize_eq hty]
    by_cases htextSize : maxDataBytes < textSize ty
    · rw [checkedSize, if_pos htextSize, if_pos (by omega)]
      rfl
    rw [checkedSize, if_neg htextSize, ok_bind, checked_of_lt (by dsimp only; omega), ok_bind]
    by_cases hbodySize : maxDataBytes < bodySize ty
    · rw [checkedSize, if_pos hbodySize, if_pos (by omega)]
      rfl
    rw [checkedSize, if_neg hbodySize, ok_bind, checked_of_lt (by dsimp only; omega), ok_bind,
      checked_of_lt (by dsimp only; omega), ok_bind]
    split
    · rw [if_pos (by omega)]
      rfl
    · rw [ok_bind, ih hrest (by omega) (by omega)]
      simp only [Nat.add_assoc]

theorem defaultValues_eq (htypes : ∀ ty ∈ types, ty.Valid) : defaultValues overflow types =
    sequenceLimit types >>= fun _ =>
      if maxDataBytes < textSizes types ∨ maxDataBytes < bodySizes types then .error .limit
      else .ok (types.map defaultValue) := by
  rw [defaultValues, foldlM_addDefault htypes (Nat.zero_le _) (Nat.zero_le _), Nat.zero_add,
    Nat.zero_add]
  congr 1
  funext
  split <;> rfl

/-- Defaults are returned exactly if they can be encoded.  Their encoding then has the predicted size
and is decoded, their text has the predicted size, and no prediction overflows. -/
theorem default_values_encodable (htypes : ∀ ty ∈ types, ty.Valid) :
    (∀ values, defaultValues .limit types = .ok values ↔
      values = types.map defaultValue ∧ ∃ bytes, encode keccak256 types values = .ok bytes) ∧
    (∀ values, defaultValues .limit types = .ok values →
      ∃ bytes, ∃ body text : AbiType → ℕ, encode keccak256 types values = .ok bytes ∧
        (∀ ty ∈ types, defaultBodySize .limit ty = .ok (body ty) ∧
          defaultTextSize .limit ty = .ok (text ty)) ∧
        bytes.length =
          (types.map fun ty => body ty + if ty.metadata.dynamic = true then 32 else 0).sum ∧
        decodeValues keccak256 types bytes = .ok values ∧
        textBytesAll values = (types.map text).sum) ∧
    ∀ overflow, defaultValues overflow types = defaultValues .limit types ∧
      ∀ ty : AbiType, ty.Valid →
        defaultTextSize overflow ty = defaultTextSize .limit ty ∧
          defaultBodySize overflow ty = defaultBodySize .limit ty := by
  obtain ⟨hcanonical, hnodes, htext, parts, hparts, hlength⟩ :=
    @defaults_sequence types keccak256 fun ty hty => defaultValue_isDefault (htypes ty hty)
  have hencoded : sequenceLimit types = .ok () → textSizes types ≤ maxDataBytes →
      bodySizes types ≤ maxDataBytes →
      Encoded keccak256 types (types.map defaultValue) (layout parts) := by
    intro hlimit hbytes hsize
    refine ⟨hlimit, ?_, htext.trans_le hbytes, ⟨parts, hparts, rfl⟩, hlength.trans_le hsize⟩
    simp only [sequenceLimit, eq_ok, not_lt] at hlimit
    exact hnodes.trans_le hlimit.2.1
  simp only [defaultValues_eq htypes, eq_ok, not_or, not_lt, encode_eq_ok htypes]
  refine ⟨fun values => ⟨?_, ?_⟩, ?_, fun overflow => ⟨trivial, fun ty hty => ⟨?_, ?_⟩⟩⟩
  · rintro ⟨⟨⟩, hlimit, ⟨hbytes, hsize⟩, rfl⟩
    exact ⟨rfl, _, hencoded hlimit hbytes hsize⟩
  · rintro ⟨rfl, bytes, hlimit, -, hbytes, ⟨others, hothers, rfl⟩, hsize⟩
    rw [← hparts.unique (fun _ _ _ _ _ h h' => h.unique h') hothers, hlength] at hsize
    exact ⟨(), hlimit, ⟨htext ▸ hbytes, hsize⟩, rfl⟩
  · rintro values ⟨⟨⟩, hlimit, ⟨hbytes, hsize⟩, rfl⟩
    have hlayout := hencoded hlimit hbytes hsize
    refine ⟨layout parts, bodySize, textSize, hlayout, fun ty hmem => ⟨?_, ?_⟩, ?_,
      (decodeValues_eq_ok htypes).mpr ⟨hcanonical, hlayout⟩, ?_⟩
    · rw [defaultBodySize_eq (htypes ty hmem)]
      exact checkedSize_eq_ok.mpr ⟨rfl, (totalSize_le hmem).trans hsize⟩
    · rw [defaultTextSize_eq (htypes ty hmem)]
      exact checkedSize_eq_ok.mpr ⟨rfl, (totalSize_le hmem).trans hbytes⟩
    · exact hlength.trans totalSizes_eq_sum
    · exact htext.trans totalSizes_eq_sum
  · rw [defaultTextSize_eq hty, defaultTextSize_eq hty]
  · rw [defaultBodySize_eq hty, defaultBodySize_eq hty]

end

/-- Two arrays of no texts: an offset for each array, and nothing to point at. -/
def emptyTexts : AbiType := .array (.array .string (some 0)) (some 2)

theorem emptyTexts_valid : ∀ ty ∈ [emptyTexts], ty.Valid := by
  intro ty hty
  rw [mem_singleton.mp hty]
  exact .array (.array .string ⟨by decide, by decide⟩) ⟨by decide, by decide⟩

theorem default_values_encodable_empty :
    defaultValues .limit [emptyTexts] = .ok [.array [.array [], .array []]] ∧
      ∃ bytes, encode zeroHash [emptyTexts] [.array [.array [], .array []]] = .ok bytes ∧
        decodeValues zeroHash [emptyTexts] bytes = .ok [.array [.array [], .array []]] ∧
        bytes.length = 96 := by
  have hdefault : defaultValues .limit [emptyTexts] = .ok [.array [.array [], .array []]] := rfl
  obtain ⟨bytes, body, text, hencode, hsizes, hlength, hdecode, -⟩ :=
    (@default_values_encodable _ zeroHash emptyTexts_valid).2.1 _ hdefault
  have hbody : body emptyTexts = 64 := (Except.ok.inj (hsizes _ mem_cons_self).1).symm
  refine ⟨hdefault, bytes, hencode, hdecode, hlength.trans ?_⟩
  show body emptyTexts + 32 + 0 = 96
  rw [hbody]

end QuaiSdk.Abi
