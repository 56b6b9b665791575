/-
LeastSquares.Proofs.Balance — the parts of a span differ by at most one.

The loop that cuts a span lays its parts end to end: a part starts where the one before it stopped,
and the first `extra` of them hold one integer more than the others (`lay`). How far it has come
after `m` parts is `mark`, one formula on both sides of the last longer part; it is what every turn
of the loop preserves (`lay_mark`), and all turns together by induction (`foldl_lay`). So the loop
comes to rest exactly at the end of the span (`mark_split`), and the part with a given number is
known without those before it (`getElem?_split`). Everything that is said of a partition is read off
these marks (`balanced_split`).
-/
import Mathlib.Data.List.Pairwise
import LeastSquares.Proofs.Dispatch

namespace LeastSquares.Span

/-! ## The loop -/

/-- One turn of the loop that lays parts end to end: how far it has come and the parts so far, with
one more part of `base` integers, or of `base + 1` if its number is below `extra`. -/
def lay (base extra : Nat) (laid : Int × List Span) (m : Nat) : Int × List Span :=
  let stop := laid.1 + (base : Int) + (if m < extra then 1 else 0)
  (stop, laid.2 ++ [⟨laid.1, stop⟩])

/-- How far `m` parts reach. -/
def mark (start : Int) (base extra m : Nat) : Int := start + ((m * base + min m extra : Nat) : Int)

@[simp] theorem mark_zero (start : Int) (base extra : Nat) : mark start base extra 0 = start := by
  simp [mark]

theorem mark_succ (start : Int) (base extra m : Nat) :
    mark start base extra (m + 1) =
      mark start base extra m + (base : Int) + (if m < extra then 1 else 0) := by
  unfold mark
  rw [Nat.succ_mul]
  split <;> omega

/-- Behind the first part the marks are those of the other parts. -/
theorem mark_shift (start : Int) (base extra m : Nat) :
    mark (mark start base extra 1) base (extra - 1) m = mark start base extra (m + 1) := by
  unfold mark
  rw [Nat.one_mul, Nat.succ_mul]
  omega

/-- The tiles lie between the marks. -/
theorem tiles_eq_map (start : Int) (base count extra : Nat) :
    tiles start base count extra = (List.range count).map fun m =>
      ⟨mark start base extra m, mark start base extra (m + 1)⟩ := by
  induction count generalizing start extra with
  | zero => rfl
  | succ count ih =>
    have hfirst : start + (base : Int) + (if 0 < extra then 1 else 0) =
        mark start base extra 1 := by
      rw [mark_succ, mark_zero]
    rw [tiles, hfirst, ih, List.range_succ_eq_map, List.map_cons, List.map_map, mark_zero]
    congr 1
    refine List.map_congr_left fun m _ => ?_
    rw [Function.comp_apply, mark_shift, mark_shift]

/-- **One turn** goes from a mark to the next one. -/
theorem lay_mark (start : Int) (base extra m : Nat) :
    lay base extra (mark start base extra m, tiles start base m extra) m =
      (mark start base extra (m + 1), tiles start base (m + 1) extra) := by
  simp only [lay, ← mark_succ, tiles_eq_map, List.range_succ, List.map_append, List.map_singleton]

/-- **All turns** go from the start to the last mark. -/
theorem foldl_lay (start : Int) (base extra m : Nat) :
    (List.range m).foldl (lay base extra) (start, []) =
      (mark start base extra m, tiles start base m extra) := by
  induction m with
  | zero => simp [tiles]
  | succ m ih =>
    rw [List.range_succ, List.foldl_append, ih, List.foldl_cons, List.foldl_nil, lay_mark]

/-! ## A split span -/

section Split

variable {s : Span} {count : Nat}

theorem length_split (s : Span) (count : Nat) : (s.split count).length = min count s.size :=
  length_tiles _ _ _ _

/-- The last mark is the end of the span. -/
theorem mark_split (hs : s.start < s.stop) (hcount : 0 < count) :
    mark s.start (s.size / min count s.size) (s.size % min count s.size) (min count s.size) =
      s.stop := by
  have hsize : (s.size : Int) = s.stop - s.start := by
    simp only [size]
    omega
  have hparts : 0 < min count s.size := by omega
  have hmod := Nat.mod_lt s.size hparts
  have hdiv := Nat.div_add_mod s.size (min count s.size)
  unfold mark
  rw [Nat.min_eq_right (Nat.le_of_lt hmod), hdiv]
  omega

/-- The part with a given number. -/
theorem getElem?_split (s : Span) {count m : Nat} (hm : m < min count s.size) :
    (s.split count)[m]? =
      some ⟨mark s.start (s.size / min count s.size) (s.size % min count s.size) m,
        mark s.start (s.size / min count s.size) (s.size % min count s.size) (m + 1)⟩ := by
  rw [split, tiles_eq_map, List.getElem?_map, List.getElem?_range hm, Option.map_some]

/-- Parts that are not empty lie end to end from the start of a span to its stop, and none of them
is longer than one before it, or shorter by more than one. -/
structure Balanced (s : Span) (parts : List Span) : Prop where
  nonempty : ∀ part ∈ parts, part.start < part.stop
  start_eq : parts.head?.map start = some s.start
  stop_eq : parts.getLast?.map stop = some s.stop
  adjacent : ∀ m a b, parts[m]? = some a → parts[m + 1]? = some b → b.start = a.stop
  sizes : parts.Pairwise fun a b => b.size ≤ a.size ∧ a.size ≤ b.size + 1

/-- No integer lies in two parts, because one of them stops before the other one starts. -/
theorem eq_of_mem_split {a b : Span} (ha : a ∈ s.split count) (hb : b ∈ s.split count) {i : Int}
    (hia : i ∈ a) (hib : i ∈ b) : a = b := by
  have hapart : (s.split count).Pairwise fun a b => ¬ (i ∈ a ∧ i ∈ b) :=
    (s.pairwise_split count).imp fun {a b} hab => by
      simp only [mem_def]
      omega
  have hsymm : Std.Symm fun a b : Span => ¬ (i ∈ a ∧ i ∈ b) := ⟨fun _ _ hab hba => hab hba.symm⟩
  by_contra hne
  exact hapart.forall ha hb hne ⟨hia, hib⟩

/-- The size of the part with a given number. -/
theorem size_between_marks (start : Int) (base extra m : Nat) :
    (Span.mk (mark start base extra m) (mark start base extra (m + 1))).size =
      base + (if m < extra then 1 else 0) := by
  simp only [size, mark_succ]
  split <;> omega

theorem balanced_split (hs : s.start < s.stop) (hcount : 0 < count) :
    s.Balanced (s.split count) := by
  have hlength := s.length_split count
  have hsize : 0 < s.size := by
    simp only [size]
    omega
  refine ⟨fun part hpart => start_lt_stop_of_mem_split hpart, ?_, ?_, ?_, ?_⟩
  · rw [List.head?_eq_getElem?, getElem?_split s (by omega), Option.map_some, mark_zero]
  · rw [List.getLast?_eq_getElem?, hlength, getElem?_split s (by omega), Option.map_some,
      Nat.sub_add_cancel (by omega), mark_split hs hcount]
  · intro m a b ha hb
    have hm : m + 1 < min count s.size := hlength ▸ (List.getElem?_eq_some_iff.mp hb).1
    rw [getElem?_split s (by omega), Option.some.injEq] at ha
    rw [getElem?_split s hm, Option.some.injEq] at hb
    rw [← ha, ← hb]
  · rw [split, tiles_eq_map, List.pairwise_map]
    refine List.pairwise_lt_range.imp ?_
    intro m m' hlt
    rw [size_between_marks, size_between_marks]
    split <;> split <;> omega

end Split

/-! ## Partitions -/

/-- **A partition is a balanced tiling.** A span without integers has no parts. Any other span is
cut into as many parts as are asked for, or as it has integers; they lie end to end, are not empty,
and their sizes fall by one at most once. The loop that lays them comes to rest at the end of the
span. Every integer of the span lies in exactly one part, and no other integer does. -/
theorem partition_balanced (s : Span) {count : Int} (h : 1 ≤ count) :
    ∃ parts, s.partition count = .ok parts ∧
      (s.stop ≤ s.start → parts = []) ∧
      (s.start < s.stop →
        (parts.length : Int) = min count (s.stop - s.start) ∧ s.Balanced parts ∧
          (List.range parts.length).foldl (lay (s.size / parts.length) (s.size % parts.length))
            (s.start, []) = (s.stop, parts)) ∧
      parts.Nodup ∧
      ∀ i, (i ∈ s → ∃! part, part ∈ parts ∧ i ∈ part) ∧ ∀ part ∈ parts, i ∈ part → i ∈ s := by
  have hcount : 0 < count.toNat := by omega
  have hlength := s.length_split count.toNat
  have hparts : s.split count.toNat = Parallel.parts s count := by
    rw [Parallel.parts, Int.max_eq_left h]
  have hindices : (s.split count.toNat).flatMap indices = s.indices :=
    s.flatMap_indices_split hcount
  refine ⟨s.split count.toNat, if_neg (by omega), fun hs => ?_, fun hs => ⟨?_, ?_, ?_⟩, ?_,
    fun i => ⟨fun hi => ?_, fun part hpart hi => ?_⟩⟩
  · rw [← List.length_eq_zero_iff, hlength]
    simp only [size]
    omega
  · rw [hlength]
    simp only [size]
    omega
  · exact balanced_split hs hcount
  · rw [hlength, foldl_lay, mark_split hs hcount]
    rfl
  · rw [hparts]
    exact Parallel.nodup_parts s count
  · rw [← mem_indices, ← hindices] at hi
    obtain ⟨part, hpart, hmem⟩ := List.mem_flatMap.mp hi
    refine ⟨part, ⟨hpart, mem_indices.mp hmem⟩, ?_⟩
    rintro other ⟨hother, hmem'⟩
    exact eq_of_mem_split hother hpart hmem' (mem_indices.mp hmem)
  · rw [← mem_indices, ← hindices]
    exact List.mem_flatMap.mpr ⟨part, hpart, mem_indices.mpr hi⟩

/-- Eight integers in three parts: one of them holds the zero. -/
theorem partition_balanced_eight :
    (1 : Int) ≤ 3 ∧ ∃ parts, (Span.mk (-3) 5).partition 3 = .ok parts ∧ parts.length = 3 ∧
      (Span.mk (-3) 5).Balanced parts ∧ ∃! part, part ∈ parts ∧ (0 : Int) ∈ part := by
  obtain ⟨parts, hparts, -, hfilled, -, hmem⟩ :=
    partition_balanced (Span.mk (-3) 5) (show (1 : Int) ≤ 3 by decide)
  obtain ⟨hlength, hbalanced, -⟩ := hfilled (by decide)
  have hthree : (parts.length : Int) = 3 := hlength
  exact ⟨by decide, parts, hparts, by omega, hbalanced, (hmem 0).1 (by decide)⟩

end LeastSquares.Span
