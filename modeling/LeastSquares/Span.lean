/-
LeastSquares.Span — half-open ranges of integers and their balanced partition.

`split` cuts a span into at most `count` non-empty parts that tile it; the first
`size % count` parts are one longer than the others, so sizes never differ by more than one.
-/
import LeastSquares.Fault

namespace LeastSquares

/-- The integers from `start` up to, and without, `stop`. -/
structure Span where
  start : Int
  stop : Int
  deriving DecidableEq, Repr

namespace Span

/-- How many integers a span holds. -/
def size (s : Span) : Nat := (s.stop - s.start).toNat

instance : Membership Int Span := ⟨fun s i => s.start ≤ i ∧ i < s.stop⟩

theorem mem_def {s : Span} {i : Int} : i ∈ s ↔ s.start ≤ i ∧ i < s.stop := Iff.rfl

instance (i : Int) (s : Span) : Decidable (i ∈ s) :=
  inferInstanceAs (Decidable (s.start ≤ i ∧ i < s.stop))

/-- The integers of a span, in ascending order. -/
def indices (s : Span) : List Int := (List.range s.size).map fun (k : Nat) => s.start + (k : Int)

@[simp] theorem length_indices (s : Span) : s.indices.length = s.size := by simp [indices]

theorem mem_indices {s : Span} {i : Int} : i ∈ s.indices ↔ i ∈ s := by
  simp only [indices, List.mem_map, List.mem_range, mem_def, size]
  constructor
  · rintro ⟨k, hk, rfl⟩
    omega
  · intro h
    exact ⟨(i - s.start).toNat, by omega, by omega⟩

/-- The integers of a span of natural numbers. -/
def naturals (s : Span) : List Nat := s.indices.map Int.toNat

/-- Adjacent spans of given sizes, from an integer on. -/
def adjacent (start : Int) : List Int → List Span
  | [] => []
  | size :: rest => ⟨start, start + size⟩ :: adjacent (start + size) rest

@[simp] theorem length_adjacent (start : Int) (sizes : List Int) :
    (adjacent start sizes).length = sizes.length := by
  induction sizes generalizing start with
  | nil => rfl
  | cons size rest ih => simp [adjacent, ih]

/-- An end of a span as a place among `n` positions; a negative one counts from the back. -/
def place (n : Nat) (i : Int) : Nat := if i < 0 then (i + n).toNat else min i.toNat n

/-- The first of the positions below `n` that a span picks, and how many they are. -/
def pick (s : Span) (n : Nat) : Nat × Nat :=
  (place n s.start, place n s.stop - place n s.start)

/-- A span inside the positions picks its own integers. -/
theorem pick_of_le {s : Span} {n : Nat} (h₀ : 0 ≤ s.start) (h₁ : s.start ≤ s.stop)
    (h₂ : s.stop ≤ n) : s.pick n = (s.start.toNat, s.size) := by
  have hstop : 0 ≤ s.stop := by omega
  simp only [pick, place, size, if_neg (Int.not_lt.mpr h₀), if_neg (Int.not_lt.mpr hstop),
    Prod.mk.injEq]
  omega

/-- `count` adjacent parts from `start` on: the first `extra` hold `base + 1` integers, the
others `base`. -/
def tiles (start : Int) (base : Nat) : Nat → Nat → List Span
  | 0, _ => []
  | count + 1, extra =>
    let stop := start + (base : Int) + (if 0 < extra then 1 else 0)
    ⟨start, stop⟩ :: tiles stop base count (extra - 1)

@[simp] theorem length_tiles (start : Int) (base count extra : Nat) :
    (tiles start base count extra).length = count := by
  induction count generalizing start extra with
  | zero => rfl
  | succ count ih => simp [tiles, ih]

/-- Cut a span into at most `count` non-empty adjacent parts. -/
def split (s : Span) (count : Nat) : List Span :=
  let parts := min count s.size
  tiles s.start (s.size / parts) parts (s.size % parts)

/-- `split` for a count that may be refused. -/
def partition (s : Span) (count : Int) : Except Fault (List Span) :=
  if count < 1 then .error .noParts else .ok (s.split count.toNat)

end Span

end LeastSquares
