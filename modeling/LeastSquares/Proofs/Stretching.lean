/-
LeastSquares.Proofs.Stretching — dampings of any length.

An update reads a damping block by block and never asks how long it is. A block takes the slice of
the damping in its span; a slice as long as the block goes to its diagonal, a slice of one number
stretches over the whole block, and any other slice is refused (`damp_eq_error_iff`). So the length
of a damping shows only where it does not fit (`Fits`), and only if no block before was singular:
`invertFrom_eq_error_iff` says which block decides.

A damping of the right length fits every block and is added to the diagonal, whatever the signs of
the sizes. Blocks of sizes that are not negative cover the columns, and then the lengths that fit
every block can be told (`fits_all_iff`): those that reach the last column, and the one that stops
after the first column of the last block with columns. The numbers behind the last column are not
read; the one number of the last block is added to all its entries, so that what is inverted is no
block of `A'A + diag(D) ^ 2`.
-/
import LeastSquares.Proofs.Damping
import LeastSquares.Proofs.Persistence

namespace LeastSquares

namespace BlockJacobi

/-! ## Slices of a damping -/

section Slices

variable {α : Type}

/-- A slice of a damping fits the block of a span among `n` columns: it is as long as the block, or
a single number. -/
def Fits (D : Array α) (n : Nat) (s : Span) : Prop :=
  (slice D s).size = (s.pick n).2 ∨ (slice D s).size = 1

instance (D : Array α) (n : Nat) (s : Span) : Decidable (Fits D n s) :=
  inferInstanceAs (Decidable ((slice D s).size = (s.pick n).2 ∨ (slice D s).size = 1))

/-- A slice counts from the first position that its span picks. -/
theorem getD_slice_pick [Zero α] (D : Array α) (s : Span) {i : Nat} (h : i < (slice D s).size) :
    (slice D s).getD i 0 = D.getD ((s.pick D.size).1 + i) 0 := by
  have hpick := s.pick_add_le D.size
  rw [size_slice_eq] at h
  simp only [slice, Array.getD_eq_getD_getElem?, Array.getElem?_extract]
  rw [if_pos (by omega)]

/-- The slice in a span inside the columns holds what the damping has of it. -/
theorem size_slice_of_inside {n : Nat} {s : Span} (h : s.Inside n) (D : Array α) :
    (slice D s).size = min s.stop.toNat D.size - min s.start.toNat D.size := by
  obtain ⟨hstart, hle, -⟩ := h
  have hstop : ¬ s.stop < 0 := by omega
  rw [size_slice_eq, Span.pick, Span.place, Span.place, if_neg hstop, if_neg (by omega)]

/-- **Which lengths fit.** A damping fits all blocks of spans that cover the columns when it reaches
the last column, or when it stops after the first column of the span that ends there. -/
theorem fits_all_iff {n : Nat} {spans : List Span} (covering : Span.Covering n spans)
    (D : Array α) :
    (∀ s ∈ spans, Fits D n s) ↔
      n ≤ D.size ∨ ∃ s ∈ spans, s.stop = n ∧ s.start + 1 = D.size := by
  have hcount : ∀ s ∈ spans, (s.pick n).2 = s.stop.toNat - s.start.toNat := by
    intro s hs
    obtain ⟨hstart, hle, -⟩ := covering.inside s hs
    rw [(covering.inside s hs).pick_eq, Span.size]
    omega
  constructor
  · intro hfits
    rcases Nat.lt_or_ge D.size n with hshort | hlong
    · -- the block in which the damping ends has a slice that is too short
      obtain ⟨s, hs, hmem⟩ := covering.exists_mem D.size hshort
      rw [Span.mem_def] at hmem
      have inside := covering.inside s hs
      have hstart := inside.start_nonneg
      have hstop := inside.stop_le
      have hfit := hfits s hs
      rw [Fits, hcount s hs, size_slice_of_inside inside] at hfit
      have hone : s.start + 1 = D.size := by omega
      refine Or.inr ⟨s, hs, ?_, hone⟩
      by_contra hne
      -- the block behind it has no slice at all
      obtain ⟨s', hs', hmem'⟩ := covering.exists_mem s.stop.toNat (by omega)
      have hfirst : ((s.stop.toNat : Nat) : Int) = s.stop := by omega
      rw [hfirst, Span.mem_def] at hmem'
      have inside' := covering.inside s' hs'
      have hle' := inside'.start_le_stop
      have hbehind : (D.size : Int) < s'.start := by
        by_contra hnot
        have hsame : s = s' := covering.eq_of_mem hs hs' (j := D.size)
          (Span.mem_def.mpr hmem) (Span.mem_def.mpr ⟨by omega, by omega⟩)
        rw [← hsame] at hmem'
        omega
      have hfit' := hfits s' hs'
      rw [Fits, hcount s' hs', size_slice_of_inside inside'] at hfit'
      omega
    · exact Or.inl hlong
  · intro hends s' hs'
    have inside' := covering.inside s' hs'
    have hle' := inside'.start_le_stop
    have hstart' := inside'.start_nonneg
    have hstop' := inside'.stop_le
    rw [Fits, hcount s' hs', size_slice_of_inside inside']
    rcases hends with hlong | ⟨s, hs, hstop, hone⟩
    · left
      omega
    · obtain ⟨hstart, hle, -⟩ := covering.inside s hs
      by_cases hreached : s'.stop ≤ D.size
      · left
        omega
      · by_cases hempty : s'.start = s'.stop
        · left
          omega
        · -- both spans hold the last position of `s'`
          obtain rfl : s = s' := covering.eq_of_mem hs hs' (j := s'.stop - 1)
            (Span.mem_def.mpr ⟨by omega, by omega⟩) (Span.mem_def.mpr ⟨by omega, by omega⟩)
          right
          omega

end Slices

/-! ## Damped blocks -/

section Blocks

variable {α : Type} [Zero α] [Add α] [Mul α]

/-- The diagonal block of `A'A` in a span with a term added to every entry. -/
structure DampedBy (A : Compressed α) (s : Span) (term : Nat → Nat → α) (B : Dense α) : Prop where
  rows_eq : B.rows = (s.pick A.pattern.numCols).2
  cols_eq : B.cols = (s.pick A.pattern.numCols).2
  get_eq : ∀ i j, i < (s.pick A.pattern.numCols).2 → j < (s.pick A.pattern.numCols).2 →
    B.get i j = A.gramEntry ((s.pick A.pattern.numCols).1 + i) ((s.pick A.pattern.numCols).1 + j) +
      term i j

/-- The squares of a damping from a position on, along the diagonal. -/
def squaresFrom (D : Array α) (first i j : Nat) : α :=
  if i = j then D.getD (first + i) 0 * D.getD (first + i) 0 else 0

/-- One square of a damping for all entries. -/
def squareAt (D : Array α) (first : Nat) (_ _ : Nat) : α := D.getD first 0 * D.getD first 0

variable {A : Compressed α} {D : Array α} {s : Span}

/-- A damping is refused at the blocks that it does not fit. -/
theorem damp_eq_error_iff {e : Fault} :
    damp (some D) s (gramBlock A s) = .error e ↔ e = .shapes ∧ ¬ Fits D A.pattern.numCols s := by
  have hfits : Stretch.fits (gramBlock A s).rows (slice D s).size = true ↔
      Fits D A.pattern.numCols s := by
    simp [Stretch.fits, Fits, gramBlock]
  rw [damp]
  by_cases h : Fits D A.pattern.numCols s
  · simp [if_pos (hfits.mpr h), h]
  · simp [if_neg (hfits.not.mpr h), h, eq_comm (a := e)]

theorem dampedBy_of_fits (h : Fits D A.pattern.numCols s) :
    ∃ B, damp (some D) s (gramBlock A s) = .ok B ∧ DampedBy A s (fun i j =>
      let u := Stretch.index (slice D s).size i
      let v := Stretch.index (slice D s).size j
      if u = v then (slice D s).getD u 0 * (slice D s).getD u 0 else 0) B := by
  have hfits : Stretch.fits (gramBlock A s).rows (slice D s).size = true := by
    simpa [Stretch.fits, Fits, gramBlock] using h
  refine ⟨_, if_pos hfits, rfl, rfl, fun i j hi hj => ?_⟩
  rw [Dense.get_ofFn_of_lt _ (show i < (gramBlock A s).rows from hi)
    (show j < (gramBlock A s).cols from hj)]
  refine congrArg (· + _) ?_
  exact Dense.get_ofFn_of_lt _ hi hj

theorem DampedBy.congr {term term' : Nat → Nat → α} {B : Dense α} (h : DampedBy A s term B)
    (hterm : ∀ i j, i < (s.pick A.pattern.numCols).2 → j < (s.pick A.pattern.numCols).2 →
      term i j = term' i j) : DampedBy A s term' B where
  rows_eq := h.rows_eq
  cols_eq := h.cols_eq
  get_eq i j hi hj := by rw [h.get_eq i j hi hj, hterm i j hi hj]

/-- A slice as long as its block goes to the diagonal. -/
theorem exists_damp_of_size_eq (h : (slice D s).size = (s.pick A.pattern.numCols).2) :
    ∃ B, damp (some D) s (gramBlock A s) = .ok B ∧
      DampedBy A s (squaresFrom D (s.pick D.size).1) B := by
  obtain ⟨B, hB, hdamped⟩ := dampedBy_of_fits (A := A) (Or.inl h)
  refine ⟨B, hB, hdamped.congr fun i j hi hj => ?_⟩
  rw [← h] at hi hj
  simp only [Stretch.index_of_lt hi, Stretch.index_of_lt hj, getD_slice_pick D s hi, squaresFrom]

/-- A slice of one number goes to every entry. -/
theorem exists_damp_of_size_eq_one (h : (slice D s).size = 1) :
    ∃ B, damp (some D) s (gramBlock A s) = .ok B ∧
      DampedBy A s (squareAt D (s.pick D.size).1) B := by
  obtain ⟨B, hB, hdamped⟩ := dampedBy_of_fits (A := A) (Or.inr h)
  refine ⟨B, hB, hdamped.congr fun i j _ _ => ?_⟩
  have hfirst := getD_slice_pick D s (i := 0) (by omega)
  simp only [Stretch.index, h, if_true, squareAt, hfirst, Nat.add_zero]

end Blocks

/-! ## Updates -/

section Update

variable {α : Type} [Zero α] [One α] [Add α] [Sub α] [Neg α] [Mul α] [Div α] [BEq α] [LT α]
  [DecidableLT α] {A : Compressed α}

/-- Inverting blocks is refused by the first block that refuses its damping, if all blocks before it
are inverted. -/
theorem invertFrom_eq_error_iff {damping : Option (Array α)} (index : Nat) {spans : List Span}
    {e : Fault} :
    invertFrom A damping index spans = .error e ↔
      ∃ front s back, spans = front ++ s :: back ∧ (∀ s' ∈ front, ∃ I, Inverted A damping s' I) ∧
        damp damping s (gramBlock A s) = .error e := by
  induction spans generalizing index with
  | nil => simp [invertFrom]
  | cons s rest ih =>
    have hsplit : (∃ front s' back, s :: rest = front ++ s' :: back ∧
        (∀ t ∈ front, ∃ I, Inverted A damping t I) ∧ damp damping s' (gramBlock A s') = .error e) ↔
        damp damping s (gramBlock A s) = .error e ∨ (∃ I, Inverted A damping s I) ∧
          invertFrom A damping (index + 1) rest = .error e := by
      rw [ih]
      constructor
      · rintro ⟨front, s', back, heq, hfront, hs'⟩
        cases front with
        | nil =>
          obtain ⟨rfl, -⟩ := List.cons.inj heq
          exact Or.inl hs'
        | cons t front =>
          obtain ⟨rfl, heq'⟩ := List.cons.inj heq
          exact Or.inr ⟨hfront s List.mem_cons_self, front, s', back, heq',
            fun t ht => hfront t (List.mem_cons_of_mem _ ht), hs'⟩
      · rintro (hs | ⟨hs, front, s', back, heq, hfront, hs'⟩)
        · exact ⟨[], s, rest, rfl, by simp, hs⟩
        · exact ⟨s :: front, s', back, congrArg (s :: ·) heq,
            List.forall_mem_cons.mpr ⟨hs, hfront⟩, hs'⟩
    rw [hsplit, invertFrom]
    cases hdamp : damp damping s (gramBlock A s) with
    | error e' => simp [Inverted, hdamp]
    | ok B =>
      cases hinverse : finiteInverse? B with
      | none => simp [Inverted, hdamp, hinverse]
      | some I =>
        have hinverted : ∃ I, Inverted A damping s I := ⟨I, B, hdamp, hinverse⟩
        simp only [reduceCtorEq, false_or, hinverted, true_and]
        cases invertFrom A damping (index + 1) rest with
        | error e' => simp [hinverse]
        | ok found => cases found <;> simp [hinverse]

/-- An update succeeds when all blocks are inverted. -/
theorem answer_update_eq_true_iff {b : BlockJacobi α} {damping : Option (Array α)}
    (hcheck : A.check = .ok ()) (hwidth : (A.pattern.numCols : Int) = b.numRows) :
    (b.update A damping).answer = .ok true ↔ ∀ s ∈ b.spans, ∃ I, Inverted A damping s I := by
  constructor
  · intro h
    rcases update_cases b ⟨A, damping⟩ with ⟨-, inverses, hgives, -⟩ | ⟨hno, -⟩
    · exact exists_forall₂_inverted_iff.mp ⟨inverses, hgives.2⟩
    · exact absurd h hno
  · intro h
    obtain ⟨inverses, hinverses⟩ := exists_forall₂_inverted_iff.mpr h
    rw [update_eq hcheck hwidth hinverses]

/-- An update with a damping is refused at the first block that the damping does not fit, if all
blocks before it are inverted. -/
theorem answer_update_eq_error_iff {b : BlockJacobi α} {D : Array α}
    (hcheck : A.check = .ok ()) (hwidth : (A.pattern.numCols : Int) = b.numRows) {e : Fault} :
    (b.update A (some D)).answer = .error e ↔ e = .shapes ∧
      ∃ front s back, b.spans = front ++ s :: back ∧
        (∀ s' ∈ front, ∃ I, Inverted A (some D) s' I) ∧ ¬ Fits D A.pattern.numCols s := by
  have hrefused : (b.update A (some D)).answer = .error e ↔
      invertFrom A (some D) 0 b.spans = .error e := by
    rw [update, hcheck]
    simp only [if_pos hwidth]
    cases invertFrom A (some D) 0 b.spans with
    | error e' => simp
    | ok found => cases found <;> simp
  rw [hrefused, invertFrom_eq_error_iff]
  constructor
  · rintro ⟨front, s, back, heq, hfront, hs⟩
    obtain ⟨rfl, hfit⟩ := damp_eq_error_iff.mp hs
    exact ⟨rfl, front, s, back, heq, hfront, hfit⟩
  · rintro ⟨rfl, front, s, back, heq, hfront, hfit⟩
    exact ⟨front, s, back, heq, hfront, damp_eq_error_iff.mpr ⟨rfl, hfit⟩⟩

/-- **Dampings of any length.** An update is refused exactly at the first block that its damping
does not fit, if the blocks before it are inverted, and succeeds exactly when all blocks are. A
damping of as many numbers as there are columns is never refused, and its squares are added to the
diagonal. Among blocks of sizes that are not negative, a damping of another length fits all of them
exactly when it is longer or stops after the first column of the block that ends at the last column;
where it covers a block its squares are added to the diagonal, and where it stops after the first
column of a block the square of its last number is added to every entry. -/
theorem update_with_any_damping (b : BlockJacobi α) (hcheck : A.check = .ok ())
    (hwidth : (A.pattern.numCols : Int) = b.numRows) (D : Array α) :
    (∀ e, (b.update A (some D)).answer = .error e ↔ e = .shapes ∧
      ∃ front s back, b.spans = front ++ s :: back ∧
        (∀ s' ∈ front, ∃ I, Inverted A (some D) s' I) ∧ ¬ Fits D A.pattern.numCols s) ∧
    ((b.update A (some D)).answer = .ok true ↔ ∀ s ∈ b.spans, ∃ I, Inverted A (some D) s I) ∧
    (D.size = A.pattern.numCols → ∀ s ∈ b.spans, Fits D A.pattern.numCols s ∧
      ∃ B, damp (some D) s (gramBlock A s) = .ok B ∧
        DampedBy A s (squaresFrom D (s.pick A.pattern.numCols).1) B) ∧
    ((∀ k ∈ b.blockSizes, 0 ≤ k) →
      ((∀ s ∈ b.spans, Fits D A.pattern.numCols s) ↔ A.pattern.numCols ≤ D.size ∨
        ∃ s ∈ b.spans, s.stop = A.pattern.numCols ∧ s.start + 1 = D.size) ∧
      ∀ s ∈ b.spans,
        (s.stop ≤ D.size → ∃ B, damp (some D) s (gramBlock A s) = .ok B ∧
          DampedBy A s (squaresFrom D s.start.toNat) B) ∧
        (s.start + 1 = D.size → s.start < s.stop → ∃ B, damp (some D) s (gramBlock A s) = .ok B ∧
          DampedBy A s (squareAt D s.start.toNat) B)) := by
  refine ⟨fun e => answer_update_eq_error_iff hcheck hwidth,
    answer_update_eq_true_iff hcheck hwidth, fun hsize s _ => ?_, fun hsizes => ?_⟩
  · have hslice : (slice D s).size = (s.pick A.pattern.numCols).2 := by rw [size_slice_eq, hsize]
    have hdamped := exists_damp_of_size_eq (A := A) hslice
    rw [hsize] at hdamped
    exact ⟨Or.inl hslice, hdamped⟩
  · have covering : Span.Covering A.pattern.numCols b.spans := Span.covering_adjacent hsizes hwidth
    refine ⟨fits_all_iff covering D, fun s hs => ?_⟩
    have inside := covering.inside s hs
    have hstart := inside.start_nonneg
    have hle := inside.start_le_stop
    have hstop := inside.stop_le
    have hslice := size_slice_of_inside inside D
    constructor
    · intro hreached
      have hfirst : (s.pick D.size).1 = s.start.toNat := by
        rw [Span.Inside.pick_eq ⟨hstart, hle, hreached⟩]
      have hfull : (slice D s).size = (s.pick A.pattern.numCols).2 := by
        rw [hslice, inside.pick_eq, Span.size]
        omega
      rw [← hfirst]
      exact exists_damp_of_size_eq hfull
    · intro hone hlt
      have hfirst : (s.pick D.size).1 = s.start.toNat := by
        rw [Span.pick, Span.place, if_neg (by omega)]
        omega
      have hsingle : (slice D s).size = 1 := by omega
      rw [← hfirst]
      exact exists_damp_of_size_eq_one hsingle

/-- The matrix with ones on the diagonal. -/
def ones (n : Nat) : Compressed ℚ :=
  ⟨Pattern.ofRows n ((List.range n).map fun i => [i]), Array.replicate n 1⟩

/-- A damping that stops before the second block is refused there, after the first block. -/
theorem update_with_any_damping_stopped :
    ∃ b : BlockJacobi ℚ, make [.integer 1, .integer 2] = .ok b ∧
      (b.update (ones 3) (some #[1])).answer = .error .shapes := by
  obtain ⟨hrefused, -⟩ := update_with_any_damping (α := ℚ) ⟨[1, 2], none⟩ (A := ones 3) rfl rfl #[1]
  refine ⟨_, rfl, (hrefused .shapes).mpr ⟨rfl, [⟨0, 1⟩], ⟨1, 3⟩, [], rfl, ?_, by decide⟩⟩
  rintro s' hs'
  obtain rfl := List.mem_singleton.mp hs'
  exact ⟨Dense.ofFn 1 1 fun _ _ => 1 / 2, _, rfl, by with_unfolding_all rfl⟩

/-- One number damps all four entries of a block of two columns, and of three numbers the last is
not read; neither length is refused. -/
theorem accepted_lengths :
    ∃ b : BlockJacobi ℚ, make [.integer 2] = .ok b ∧ (ones 2).check = .ok () ∧
      ((ones 2).pattern.numCols : Int) = b.numRows ∧
      (b.update (ones 2) (some #[1])).answer = .ok true ∧
      (b.update (ones 2) (some #[1])).state.multiplyAdd #[3, 0] #[0, 0] = .ok #[2, -1] ∧
      (damp (some #[1]) ⟨0, 2⟩ (gramBlock (ones 2) ⟨0, 2⟩)).map (fun B => B.get 0 1) = .ok 1 ∧
      (ones 2).gramEntry 0 1 = 0 ∧
      (b.update (ones 2) (some #[1, 1, 1])).answer = .ok true := by
  refine ⟨⟨[2], none⟩, rfl, rfl, rfl, ?_, ?_, ?_, ?_, ?_⟩ <;>
    with_unfolding_all rfl

end Update

end BlockJacobi

end LeastSquares
