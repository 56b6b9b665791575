/-
LeastSquares.Manifold.Subset — some coordinates are held, the others move.

A `Subset` is a size with its constant coordinates, ascending, distinct and in range. The
tangent space is made of the free coordinates in order, and plus, minus and the Jacobian all
read the one list of them, `free`. A negative size has no coordinates.
-/
import LeastSquares.Extent
import LeastSquares.Item.Whole
import LeastSquares.Manifold

namespace LeastSquares

/-- Which of `size` coordinates are constant. -/
structure Subset where
  size : Int
  constants : List Nat
  nodup : constants.Nodup
  lt_size : ∀ i ∈ constants, (i : Int) < size

namespace Subset

/-- Choose the constant coordinates, given in any order. -/
def make (size : Int) (constants : List Int) : Except Fault Subset :=
  let sorted := constants.mergeSort fun a b => a ≤ b
  if distinct : sorted.Nodup then
    if inside : ∀ i ∈ sorted, 0 ≤ i ∧ i < size then
      .ok
        { size := size
          constants := sorted.map Int.toNat
          nodup := by
            refine List.pairwise_map.mpr (List.Pairwise.imp_of_mem ?_ distinct)
            intro a b ha hb hab
            have := inside a ha
            have := inside b hb
            omega
          lt_size := by
            intro i hi
            obtain ⟨a, ha, rfl⟩ := List.mem_map.mp hi
            have := inside a ha
            omega }
    else .error (.constantOutOfRange sorted size)
  else .error (.duplicateConstants sorted)

/-- The free coordinates, in order. -/
def free (m : Subset) : List Nat :=
  (List.range m.size.toNat).filter fun i => !m.constants.contains i

/-- How many coordinates are free. -/
def tangentSize (m : Subset) : Int := m.size - m.constants.length

/-- Distinct numbers below a bound are no more than it. -/
theorem length_le_of_nodup {n : Nat} {is : List Nat} (nodup : is.Nodup) (lt : ∀ i ∈ is, i < n) :
    is.length ≤ n := by
  induction n generalizing is with
  | zero => simp [List.eq_nil_iff_forall_not_mem.mpr fun i hi => Nat.not_lt_zero i (lt i hi)]
  | succ n ih =>
    have herase : (is.erase n).length ≤ n := by
      refine ih (nodup.erase n) fun i hi => ?_
      obtain ⟨hne, hi⟩ := nodup.mem_erase_iff.mp hi
      have := lt i hi
      omega
    have hlength := List.length_erase (a := n) (l := is)
    split at hlength <;> omega

/-- Of a size that is one, no more coordinates are held than there are. -/
theorem tangentSize_nonneg (m : Subset) (h : 0 ≤ m.size) : 0 ≤ m.tangentSize := by
  have hle := length_le_of_nodup (n := m.size.toNat) m.nodup fun i hi => by
    have := m.lt_size i hi
    omega
  unfold tangentSize
  omega

variable {α : Type} [Zero α] [One α] [Add α] [Sub α]

/-- Add the entries of `delta` from position `k` on to the coordinates of a list. -/
def addAt (delta : Array α) (x : Array α) : Nat → List Nat → Array α
  | _, [] => x
  | k, i :: rest =>
    addAt delta (x.setIfInBounds i (x.getD i 0 + delta.getD (Stretch.index delta.size k) 0))
      (k + 1) rest

/-- Move the free coordinates; a single entry of `delta` moves all of them. -/
def plus (m : Subset) (x delta : Array α) : Except Fault (Array α) :=
  if m.free.all fun i => i < x.size then
    if Stretch.fits m.free.length delta.size then .ok (addAt delta x 0 m.free)
    else .error .shapes
  else .error .outside

/-- The differences of the free coordinates. -/
def minus (m : Subset) (y x : Array α) : Except Fault (Array α) :=
  if m.free.all fun i => i < y.size && i < x.size then
    .ok ((m.free.map fun i => y.getD i 0 - x.getD i 0).toArray)
  else .error .outside

/-- Each free coordinate moves with its own tangent entry. -/
def plusJacobian (m : Subset) : Dense α :=
  let free := m.free.toArray
  Dense.ofFn m.size.toNat m.tangentSize.toNat fun i j => if free[j]? = some i then 1 else 0

end Subset

variable {α : Type} [Zero α] [One α] [Add α] [Sub α]

/-- The manifold of the free coordinates. -/
def Manifold.ofSubset (m : Subset) : Manifold α where
  ambientSize := m.size
  tangentSize := m.tangentSize
  plus x delta := (m.plus x delta).map Tensor.ofVector
  minus y x := (m.minus y x).map Tensor.ofVector
  plusJacobian x :=
    if m.size = x.size then .ok m.plusJacobian
    else (Extent.check [m.size, m.tangentSize]).map fun _ => m.plusJacobian
  tangent_nonneg := m.tangentSize_nonneg

/-- Hold some of `size` coordinates constant, each written as a number. -/
def Manifold.subset (size : Int) (constants : List Atom) : Except Fault (Manifold α) := do
  let constants ← constants.mapM Atom.whole
  let m ← Subset.make size constants
  return Manifold.ofSubset m

end LeastSquares
