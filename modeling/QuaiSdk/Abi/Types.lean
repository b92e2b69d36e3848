import QuaiSdk.Lib.Result
import Mathlib.Algebra.BigOperators.Group.List.Basic
import Mathlib.Algebra.Ring.Nat

/-!
# ABI types

`abi_type.rs`: types with the metadata that `AbiType::new` computes and bounds.
-/

namespace QuaiSdk.Abi

open Result

inductive AbiError where
  | limit
  | value
  | encoding
  deriving DecidableEq

def maxDataBytes : ℕ := 2 ^ 20

def maxValueNodes : ℕ := 32768

def maxDepth : ℕ := 64

def maxFields : ℕ := 1024

/-- `Kind`; an array without a length is dynamic. -/
inductive AbiType where
  | bool
  | int (signed : Bool) (bits : ℕ)
  | address
  | fixedBytes (n : ℕ)
  | bytes
  | string
  | array (child : AbiType) (length : Option ℕ)
  | tuple (fields : List AbiType)

open AbiType

structure Metadata where
  dynamic : Bool
  head : ℕ
  minimumNodes : ℕ
  depth : ℕ
  deriving DecidableEq

namespace Metadata

def word : Metadata := ⟨false, 32, 1, 0⟩

def text : Metadata := ⟨true, 32, 1, 0⟩

def array (child : Metadata) (length : Option ℕ) : Metadata :=
  let dynamic := length.isNone || child.dynamic
  { dynamic
    head := if dynamic = true then 32 else child.head * length.getD 0
    minimumNodes := 1 + length.getD 0 * child.minimumNodes
    depth := child.depth + 1 }

def tuple (fields : List Metadata) : Metadata :=
  let dynamic := fields.any Metadata.dynamic
  { dynamic
    head := if dynamic = true then 32 else (fields.map Metadata.head).sum
    minimumNodes := 1 + (fields.map Metadata.minimumNodes).sum
    depth := ((fields.map fun f => f.depth + 1).max?).getD 0 }

/-- The limits that `AbiType::new` puts on every type. -/
def Bounded (m : Metadata) : Prop :=
  m.minimumNodes ≤ maxValueNodes ∧ m.head ≤ maxDataBytes ∧ m.depth ≤ maxDepth

instance decidableBounded (m : Metadata) : Decidable m.Bounded :=
  inferInstanceAs (Decidable (_ ∧ _))

end Metadata

namespace AbiType

mutual

def metadata : AbiType → Metadata
  | .bytes => .text
  | .string => .text
  | .array child length => .array child.metadata length
  | .tuple fields => .tuple (metadatas fields)
  | .bool => .word
  | .int _ _ => .word
  | .address => .word
  | .fixedBytes _ => .word

def metadatas : List AbiType → List Metadata
  | [] => []
  | ty :: types => ty.metadata :: metadatas types

end

theorem metadatas_eq_map (types : List AbiType) : metadatas types = types.map metadata := by
  induction types with
  | nil => rfl
  | cons ty types ih => rw [metadatas, ih, List.map_cons]

theorem metadata_array (child : AbiType) (length : Option ℕ) :
    (array child length).metadata = .array child.metadata length := by
  rw [metadata]

theorem metadata_tuple (fields : List AbiType) :
    (tuple fields).metadata = .tuple (fields.map metadata) := by
  rw [metadata, metadatas_eq_map]

theorem dynamic_tuple (fields : List AbiType) : (tuple fields).metadata.dynamic = false ↔
      ∀ field ∈ fields, field.metadata.dynamic = false := by
  rw [metadata_tuple]
  show (fields.map metadata).any Metadata.dynamic = false ↔ _
  simp

theorem head_array {child : AbiType} {length : Option ℕ}
    (h : (array child length).metadata.dynamic = false) :
    (array child length).metadata.head = child.metadata.head * length.getD 0 := by
  exact if_neg (by rw [← Bool.not_eq_true] at h; exact h)

variable {fields : List AbiType}

theorem head_tuple (h : (tuple fields).metadata.dynamic = false) :
    (tuple fields).metadata.head = (fields.map fun f => f.metadata.head).sum := by
  rw [metadata_tuple] at h ⊢
  have hhead : (Metadata.tuple (fields.map metadata)).head =
      ((fields.map metadata).map Metadata.head).sum :=
    if_neg (by rw [← Bool.not_eq_true] at h; exact h)
  rw [hhead, List.map_map]
  rfl

/-- What `AbiType::new` and the parser's `width` check of a kind. -/
def Limited : AbiType → Prop
  | .int _ bits => 0 < bits ∧ bits ≤ 256 ∧ bits % 8 = 0
  | .fixedBytes n => 0 < n ∧ n ≤ 32
  | .array child length =>
    (∀ n ∈ length, n ≤ maxValueNodes) ∧ (array child length).metadata.Bounded
  | .tuple fields => fields.length ≤ maxFields ∧ (tuple fields).metadata.Bounded
  | _ => True

/-- The types that can be constructed: every part is checked. -/
inductive Valid : AbiType → Prop where
  | bool : Valid .bool
  | int {signed : Bool} {bits : ℕ} (h : Limited (.int signed bits)) : Valid (.int signed bits)
  | address : Valid .address
  | fixedBytes {n : ℕ} (h : Limited (.fixedBytes n)) : Valid (.fixedBytes n)
  | bytes : Valid .bytes
  | string : Valid .string
  | array {child : AbiType} {length : Option ℕ} (hchild : Valid child)
      (h : Limited (.array child length)) : Valid (.array child length)
  | tuple {fields : List AbiType} (hfields : ∀ field ∈ fields, Valid field)
      (h : Limited (.tuple fields)) : Valid (.tuple fields)

theorem Valid.item {child : AbiType} {length : Option ℕ} {n : ℕ}
    (h : (AbiType.array child length).Valid) : ∀ ty ∈ List.replicate n child, ty.Valid := by
  intro ty hmem
  cases h with
  | array hchild => exact List.eq_of_mem_replicate hmem ▸ hchild

theorem Valid.field (h : (AbiType.tuple fields).Valid) : ∀ ty ∈ fields, ty.Valid := by
  cases h with
  | tuple hfields => exact hfields

theorem Valid.bounded {ty : AbiType} (h : ty.Valid) : ty.metadata.Bounded := by
  have hword : Metadata.word.Bounded := by decide
  have htext : Metadata.text.Bounded := by decide
  cases h with
  | array hchild h | tuple hfields h => exact h.2
  | bool | int | address | fixedBytes => exact hword
  | bytes | string => exact htext

theorem depth_array (child : AbiType) (length : Option ℕ) :
    (array child length).metadata.depth = child.metadata.depth + 1 := by
  rfl

theorem depth_field {field : AbiType} (h : field ∈ fields) :
    field.metadata.depth + 1 ≤ (tuple fields).metadata.depth := by
  rw [metadata_tuple]
  apply List.le_max?_getD_of_mem
  rw [List.map_map]
  exact List.mem_map.mpr ⟨field, h, rfl⟩

@[induction_eliminator]
theorem induction {motive : AbiType → Prop} (bool : motive .bool)
    (int : ∀ signed bits, motive (.int signed bits)) (address : motive .address)
    (fixedBytes : ∀ n, motive (.fixedBytes n)) (bytes : motive .bytes) (string : motive .string)
    (array : ∀ child length, motive child → motive (.array child length))
    (tuple : ∀ fields, (∀ field ∈ fields, motive field) → motive (.tuple fields)) (ty : AbiType) :
    motive ty := by
  refine @rec motive (fun fields => ∀ field ∈ fields, motive field)
    bool int address fixedBytes bytes string array tuple ?_ ?_ ty
  · intro field hfield
    cases hfield
  · intro head tail hhead htail field hfield
    rcases List.mem_cons.mp hfield with rfl | hfield
    · exact hhead
    · exact htail field hfield

end AbiType

end QuaiSdk.Abi
