import QuaiSdk.Lib.Inventory
import QuaiSdk.Primitives

/-!
# Denominations and output references

The fifteen Qi denominations (`Denomination::VALUES`, in Qits) and the reference to an existing
output.  Each value divides the next, which is what makes splitting exact.
-/

namespace QuaiSdk

def maxTransactionBytes : ℕ := 1024 * 1024

def maxTransactionMessages : ℕ := 16384

structure Denomination where
  index : ℕ
  isLt : index < 15
  deriving DecidableEq

namespace Denomination

def ten : Denomination := ⟨2, by decide⟩

def hundred : Denomination := ⟨4, by decide⟩

def fiveHundred : Denomination := ⟨5, by decide⟩

/-- `Denomination::VALUES`. -/
def values : List ℕ :=
  [1, 5, 10, 50, 100, 500, 1000, 5000, 10000, 20000, 100000, 1000000, 10000000, 100000000,
    1000000000]

/-- The value at a slot of `VALUES`. -/
def unit (i : ℕ) : ℕ := values.getD i 0

def value (d : Denomination) : ℕ := unit d.index

/-- `Denomination::new` on an index, without its error. -/
def ofIndex (i : ℕ) : Option Denomination := if h : i < 15 then some ⟨i, h⟩ else none

@[simp] theorem ofIndex_index (d : Denomination) : ofIndex d.index = some d := by
  simp [ofIndex, d.isLt]

theorem index_of_ofIndex {i : ℕ} {d : Denomination} (h : ofIndex i = some d) : d.index = i := by
  unfold ofIndex at h
  split at h
  · rw [← Option.some.inj h]
  · cases h

def chain : Inventory.Chain where
  size := 15
  unit := unit
  pos := by decide
  dvd := fun i h => (by decide : ∀ i < 14, unit i ∣ unit (i + 1)) i (by omega)
  lt := fun i h => (by decide : ∀ i < 14, unit i < unit (i + 1)) i (by omega)

theorem value_pos (d : Denomination) : 0 < d.value := chain.pos d.index d.isLt

theorem value_lt_of_index_lt {d d' : Denomination} (h : d.index < d'.index) : d.value < d'.value :=
  chain.unit_lt_of_lt h d'.isLt

def total (ds : List Denomination) : ℕ := (ds.map value).sum

@[simp] theorem total_nil : total [] = 0 := rfl

@[simp] theorem total_cons (d : Denomination) (ds : List Denomination) :
    total (d :: ds) = d.value + total ds := by
  simp [total]

@[simp] theorem total_append (ds ds' : List Denomination) :
    total (ds ++ ds') = total ds + total ds' := by
  simp [total]

theorem demand_index_zero (ds : List Denomination) :
    Inventory.demand chain (ds.map index) 0 = total ds := by
  rw [Inventory.demand_zero, List.map_map]
  rfl

end Denomination

/-- Unique reference to an existing transaction output; `index` is a `u16`. -/
structure OutPoint where
  transactionHash : Hash32
  index : UInt16
  deriving DecidableEq

end QuaiSdk
