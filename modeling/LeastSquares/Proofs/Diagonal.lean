/-
LeastSquares.Proofs.Diagonal — every block is inverted, and applied, in a span of its own.

Adjacent spans of natural sizes lie inside the sum of the sizes and follow each other
(`Span.successive_adjacent`), so that a position belongs to one of them at most. Applying inverted
blocks writes each product into the span of its block and reads nothing that another block has
written; what a position ends up with is decided by its own block (`exists_applyBlocks`).

An update succeeds as soon as every block has an inverse of finite numbers (`invertFrom_eq_ok_iff`,
`update_eq`). Over an ordered field all numbers are finite and elimination misses no inverse, so
that is as soon as every block is invertible (`exists_finiteInverse?`).
-/
import LeastSquares.Preconditioner.BlockJacobi
import LeastSquares.Proofs.Normal
import LeastSquares.Proofs.Pivoting
import LeastSquares.Proofs.Tiling

namespace LeastSquares

/-! ## Spans -/

namespace Span

/-- A span inside the first `n` positions. -/
structure Inside (n : Nat) (s : Span) : Prop where
  start_nonneg : 0 ≤ s.start
  start_le_stop : s.start ≤ s.stop
  stop_le : s.stop ≤ n

theorem Inside.pick_eq {n : Nat} {s : Span} (h : s.Inside n) : s.pick n = (s.start.toNat, s.size) :=
  pick_of_le h.start_nonneg h.start_le_stop h.stop_le

/-- A span inside the positions holds as many of them as it has integers, from its start on. -/
theorem Inside.mem_iff {n : Nat} {s : Span} (h : s.Inside n) {j : Nat} :
    (j : Int) ∈ s ↔ s.start.toNat ≤ j ∧ j < s.start.toNat + s.size := by
  obtain ⟨hstart, hle, -⟩ := h
  rw [mem_def, size]
  omega

/-- Spans inside the first `n` positions that follow each other. -/
structure Successive (n : Nat) (spans : List Span) : Prop where
  inside : ∀ s ∈ spans, s.Inside n
  apart : spans.Pairwise fun s s' => s.stop ≤ s'.start

theorem Successive.tail {n : Nat} {s : Span} {spans : List Span} (h : Successive n (s :: spans)) :
    Successive n spans where
  inside := fun s' hs' => h.inside s' (List.mem_cons_of_mem _ hs')
  apart := (List.pairwise_cons.mp h.apart).2

/-- A position of one span belongs to no later one. -/
theorem Successive.not_mem {n : Nat} {s s' : Span} {spans : List Span}
    (h : Successive n (s :: spans)) (hs' : s' ∈ spans) {j : Int} (hj : j ∈ s) : j ∉ s' := by
  intro hj'
  have := (List.pairwise_cons.mp h.apart).1 s' hs'
  rw [mem_def] at hj hj'
  omega

theorem adjacent_append (start : Int) (xs ys : List Int) :
    adjacent start (xs ++ ys) = adjacent start xs ++ adjacent (start + totalExtent xs) ys := by
  induction xs generalizing start with
  | nil => simp [adjacent]
  | cons x xs ih => simp [adjacent, ih, Int.add_assoc]

/-- Adjacent spans of natural sizes start nowhere before the first one. -/
theorem le_start_of_mem_adjacent {start : Int} {sizes : List Nat} {s : Span}
    (h : s ∈ adjacent start (sizes.map fun (n : Nat) => (n : Int))) : start ≤ s.start := by
  induction sizes generalizing start with
  | nil => cases h
  | cons n rest ih =>
    rcases List.mem_cons.mp h with rfl | h
    · exact Int.le_refl _
    · exact Int.le_trans (Int.le_add_of_nonneg_right (Int.natCast_nonneg n)) (ih h)

/-- **Adjacent spans.** Spans of natural sizes follow each other up to the sum of the sizes. -/
theorem successive_adjacent (start : Nat) (sizes : List Nat) :
    Successive (start + totalSize sizes)
      (adjacent start (sizes.map fun (n : Nat) => (n : Int))) := by
  induction sizes generalizing start with
  | nil =>
    refine ⟨fun s hs => ?_, List.Pairwise.nil⟩
    cases hs
  | cons n rest ih =>
    have hstart : (start : Int) + n = ((start + n : Nat) : Int) := by omega
    have hrest := ih (start + n)
    rw [List.map_cons, adjacent, hstart, totalSize_cons]
    rw [Nat.add_assoc] at hrest
    refine ⟨?_, List.pairwise_cons.mpr ⟨fun s hs => le_start_of_mem_adjacent hs, hrest.apart⟩⟩
    intro s hs
    rcases List.mem_cons.mp hs with rfl | hs
    · exact ⟨by simp, by simp, by simp⟩
    · exact hrest.inside s hs

theorem totalExtent_append (xs ys : List Int) :
    totalExtent (xs ++ ys) = totalExtent xs + totalExtent ys := by
  induction xs with
  | nil => simp
  | cons x xs ih => simp [ih, Int.add_assoc]

/-- Parts of which empty ones are left out still lie where they lie among all parts. -/
theorem adjacent_filter (w : Nat → Nat) (keep : Nat → Bool) {n : Nat}
    (h : ∀ i, i < n → keep i = false → w i = 0) :
    let kept := (List.range n).filter keep
    totalExtent (kept.map fun i => (w i : Int)) = (offset w n : Nat) ∧
      adjacent 0 (kept.map fun i => (w i : Int)) =
        kept.map fun i => ⟨(offset w i : Nat), (offset w i + w i : Nat)⟩ := by
  induction n with
  | zero => exact ⟨rfl, rfl⟩
  | succ n ih =>
    obtain ⟨htotal, hadjacent⟩ := ih fun i hi => h i (by omega)
    dsimp only at htotal hadjacent ⊢
    rw [List.range_succ, List.filter_append, offset_succ]
    cases hkeep : keep n with
    | false =>
      have hempty := h n (Nat.lt_succ_self n) hkeep
      rw [List.filter_cons_of_neg (by simp [hkeep]), List.filter_nil, List.append_nil, hempty]
      exact ⟨htotal, hadjacent⟩
    | true =>
      rw [List.filter_cons_of_pos hkeep, List.filter_nil, List.map_append, List.map_append,
        totalExtent_append, adjacent_append, htotal, hadjacent]
      simp [adjacent]

end Span

namespace BlockJacobi

/-! ## Applying blocks -/

section Apply

variable {α : Type}

theorem size_slice {x : Array α} {s : Span} (h : s.Inside x.size) : (slice x s).size = s.size := by
  obtain ⟨hstart, hle, hstop⟩ := h
  simp only [slice, Span.pick_of_le hstart hle hstop, Array.size_extract, Span.size]
  omega

variable [Zero α]

/-- A slice is read from where its span starts. -/
theorem getD_slice {x : Array α} {s : Span} (h : s.Inside x.size) {v : Nat} (hv : v < s.size) :
    (slice x s).getD v 0 = x.getD (s.start.toNat + v) 0 := by
  simp only [slice, h.pick_eq, Array.getD_eq_getD_getElem?, Array.getElem?_extract]
  rw [if_pos (by
    obtain ⟨hstart, hle, hstop⟩ := h
    simp only [Span.size] at hv ⊢
    omega)]

variable [Add α]

@[simp] theorem size_addSlice (y : Array α) (start : Nat) (z : Array α) (count : Nat) :
    (addSlice y start z count).size = y.size := by
  induction count with
  | zero => rfl
  | succ k ih => rw [addSlice, Array.size_setIfInBounds, ih]

/-- What is added to a span changes the entries of the span, each of them once. -/
theorem getD_addSlice (y : Array α) (start : Nat) {z : Array α} {count : Nat}
    (hcount : count ≤ z.size) {j : Nat} (hj : j < y.size) :
    (addSlice y start z count).getD j 0 =
      if start ≤ j ∧ j < start + count then y.getD j 0 + z.getD (j - start) 0 else y.getD j 0 := by
  induction count with
  | zero =>
    rw [if_neg (by omega)]
    rfl
  | succ k ih =>
    have hbefore := ih (by omega)
    rw [addSlice, getD_setIfInBounds, size_addSlice, Stretch.index_of_lt (by omega)]
    by_cases hjk : j = start + k
    · subst hjk
      rw [if_neg (by omega)] at hbefore
      rw [if_pos ⟨rfl, hj⟩, if_pos (by omega), hbefore, Nat.add_sub_cancel_left]
    · rw [if_neg fun h => hjk h.1, hbefore]
      by_cases hin : start ≤ j ∧ j < start + k
      · rw [if_pos hin, if_pos (by omega)]
      · rw [if_neg hin, if_neg (by omega)]

variable [Mul α]

/-- What a block makes of the entries of `x` in its span, at a position of the span. -/
def blockProduct (x : Array α) (s : Span) (B : Dense α) (j : Nat) : α :=
  sumTo s.size fun v => B.get (j - s.start.toNat) v * x.getD (s.start.toNat + v) 0

/-- A block as large as its span adds its product to the entries of the span. -/
theorem getD_addSlice_mulVec {x y : Array α} {s : Span}
    (inside : s.Inside x.size) {B : Dense α} (hrows : B.rows = s.size) (hcols : B.cols = s.size)
    {j : Nat} (hj : j < y.size) :
    (addSlice y s.start.toNat (B.mulVec (slice x s)) s.size).getD j 0 =
      if (j : Int) ∈ s then y.getD j 0 + blockProduct x s B j else y.getD j 0 := by
  rw [getD_addSlice y _ (by rw [Dense.size_mulVec, hrows]) hj]
  simp only [inside.mem_iff]
  split
  · rename_i hmem
    rw [Dense.getD_mulVec B _ (by omega), hcols, blockProduct]
    refine congrArg _ ?_
    exact sumTo_congr fun v hv => by rw [getD_slice inside hv]
  · rfl

/-- **Every block in its own span.** Blocks of the sizes of successive spans can be applied; at a
position of one of the spans the product of its block is added, and elsewhere nothing. -/
theorem exists_applyBlocks {n : Nat} {x : Array α} (hx : x.size = n)
    {blocks : List (Span × Dense α)} (successive : Span.Successive n (blocks.map Prod.fst))
    (hsizes : ∀ e ∈ blocks, e.2.rows = e.1.size ∧ e.2.cols = e.1.size) {y : Array α}
    (hy : y.size = n) :
    ∃ z, applyBlocks x blocks y = .ok z ∧ z.size = n ∧ ∀ j, j < n →
      (∀ e ∈ blocks, (j : Int) ∈ e.1 → z.getD j 0 = y.getD j 0 + blockProduct x e.1 e.2 j) ∧
      ((∀ e ∈ blocks, (j : Int) ∉ e.1) → z.getD j 0 = y.getD j 0) := by
  induction blocks generalizing y with
  | nil =>
    refine ⟨y, rfl, hy, fun j _ => ⟨fun e he => ?_, fun _ => rfl⟩⟩
    cases he
  | cons first rest ih =>
    obtain ⟨s, B⟩ := first
    have hrows : B.rows = s.size := (hsizes (s, B) List.mem_cons_self).1
    have hcols : B.cols = s.size := (hsizes (s, B) List.mem_cons_self).2
    have inside : s.Inside n := successive.inside s List.mem_cons_self
    have inside' : s.Inside x.size := by rwa [hx]
    have hfits : (slice x s).size = B.cols ∧ Stretch.fits s.size B.rows :=
      ⟨by rw [size_slice inside', hcols], by simp [Stretch.fits, hrows]⟩
    have hadd := fun {j : Nat} (hj : j < n) =>
      getD_addSlice_mulVec inside' hrows hcols (j := j) (by rwa [hy])
    obtain ⟨z, hz, hsize, hentries⟩ := ih successive.tail
      (fun e he => hsizes e (List.mem_cons_of_mem _ he))
      (y := addSlice y s.start.toNat (B.mulVec (slice x s)) s.size) (by rw [size_addSlice, hy])
    refine ⟨z, ?_, hsize, fun j hj => ?_⟩
    · rw [applyBlocks, hy]
      simp only [inside.pick_eq]
      rw [if_pos hfits, hz]
    · obtain ⟨hin, hout⟩ := hentries j hj
      rw [hadd hj] at hin hout
      constructor
      · intro e he hmem
        rcases List.mem_cons.mp he with rfl | he
        · have hlater : ∀ e ∈ rest, (j : Int) ∉ e.1 := fun e he =>
            successive.not_mem (List.mem_map_of_mem he) hmem
          rw [hout hlater, if_pos hmem]
        · rw [hin e he hmem, if_neg fun hs =>
            successive.not_mem (List.mem_map_of_mem he) hs hmem]
      · intro hnone
        rw [hout fun e he => hnone e (List.mem_cons_of_mem _ he),
          if_neg (hnone (s, B) List.mem_cons_self)]

end Apply

/-! ## Inverting blocks -/

section Update

variable {α : Type} [Zero α] [One α] [Add α] [Sub α] [Neg α] [Mul α] [Div α] [BEq α] [LT α]
  [DecidableLT α]

/-- An inverse of finite numbers is the inverse. -/
theorem inverse?_of_finiteInverse? {B I : Dense α} (h : finiteInverse? B = some I) :
    Elimination.inverse? B = some I := by
  unfold finiteInverse? at h
  split at h
  · cases h
  · rename_i found hfound
    split at h
    · rw [hfound, h]
    · cases h

/-- A damped diagonal block has an inverse of finite numbers. -/
def Inverted (A : Compressed α) (damping : Option (Array α)) (s : Span) (I : Dense α) : Prop :=
  ∃ B, damp damping s (gramBlock A s) = .ok B ∧ finiteInverse? B = some I

/-- All blocks are inverted exactly when each of them is. -/
theorem invertFrom_eq_ok_iff {A : Compressed α} {damping : Option (Array α)} (index : Nat)
    {spans : List Span} {inverses : List (Dense α)} :
    invertFrom A damping index spans = .ok (.ok inverses) ↔
      List.Forall₂ (Inverted A damping) spans inverses := by
  induction spans generalizing index inverses with
  | nil =>
    rw [invertFrom, List.forall₂_nil_left_iff]
    simp only [Except.ok.injEq, eq_comm]
  | cons s rest ih =>
    rw [invertFrom, List.forall₂_cons_left_iff]
    cases hdamp : damp damping s (gramBlock A s) with
    | error e => simp [Inverted, hdamp]
    | ok B =>
      cases hinverse : finiteInverse? B with
      | none => simp [Inverted, hdamp, hinverse]
      | some I =>
        have hhead : ∀ I', Inverted A damping s I' ↔ I' = I := by
          intro I'
          simp [Inverted, hdamp, hinverse, eq_comm]
        simp only [hhead, ← ih (index + 1)]
        cases invertFrom A damping (index + 1) rest with
        | error e => simp [hinverse]
        | ok found =>
          cases found with
          | error k => simp [hinverse]
          | ok more => simp [hinverse, eq_comm]

/-- All blocks can be inverted at once when each of them can be. -/
theorem exists_forall₂_inverted_iff {A : Compressed α} {damping : Option (Array α)}
    {spans : List Span} :
    (∃ inverses, List.Forall₂ (Inverted A damping) spans inverses) ↔
      ∀ s ∈ spans, ∃ I, Inverted A damping s I := by
  induction spans with
  | nil => simp
  | cons s rest ih =>
    rw [List.forall_mem_cons, ← ih]
    constructor
    · rintro ⟨inverses, h⟩
      obtain ⟨I, more, hI, hmore, -⟩ := List.forall₂_cons_left_iff.mp h
      exact ⟨⟨I, hI⟩, more, hmore⟩
    · rintro ⟨⟨I, hI⟩, more, hmore⟩
      exact ⟨I :: more, .cons hI hmore⟩

/-- An update whose blocks are all inverted keeps their inverses. -/
theorem update_eq {b : BlockJacobi α} {A : Compressed α} {damping : Option (Array α)}
    (hcheck : A.check = .ok ()) (hwidth : (A.pattern.numCols : Int) = b.numRows)
    {inverses : List (Dense α)} (h : List.Forall₂ (Inverted A damping) b.spans inverses) :
    b.update A damping =
      { answer := .ok true, state := { b with inverses := some inverses } } := by
  rw [update, hcheck]
  simp only [if_pos hwidth, (invertFrom_eq_ok_iff 0).mpr h]

end Update

/-! ## Blocks over a field -/

section Field

variable {K : Type} [Field K]

theorem gramEntry_eq_sum (A : Compressed K) (i j : Nat) :
    A.gramEntry i j = ∑ r ∈ Finset.range A.pattern.numRows, A.entry r i * A.entry r j := by
  rw [Compressed.gramEntry, sumTo_eq_sum]
  refine Finset.sum_congr rfl fun r hr => ?_
  have hr : r < A.pattern.numRows := Finset.mem_range.mp hr
  split
  · rfl
  · rename_i hstores
    by_cases hi : i ∈ A.pattern.rowColumns r
    · have hj : j ∉ A.pattern.rowColumns r := fun hj => hstores ⟨⟨hr, hi⟩, hr, hj⟩
      rw [A.entry_eq_zero_of_not_stores hj, mul_zero]
    · rw [A.entry_eq_zero_of_not_stores hi, zero_mul]

/-- The diagonal block of a span is that of the normal matrix. -/
theorem gramBlock_spec {A : Compressed K} {s : Span} (inside : s.Inside A.pattern.numCols) :
    (gramBlock A s).rows = s.size ∧ (gramBlock A s).cols = s.size ∧
      ∀ u v, u < s.size → v < s.size → (gramBlock A s).get u v =
        ∑ r ∈ Finset.range A.pattern.numRows,
          A.entry r (s.start.toNat + u) * A.entry r (s.start.toNat + v) := by
  unfold gramBlock
  simp only [inside.pick_eq]
  refine ⟨rfl, rfl, fun u v hu hv => ?_⟩
  rw [Dense.get_ofFn_of_lt _ hu hv, gramEntry_eq_sum]

variable [LinearOrder K] [IsStrictOrderedRing K]

/-- **Invertible blocks are inverted.** -/
theorem exists_finiteInverse? {B : Dense K} {n : Nat} (hrows : B.rows = n) (hcols : B.cols = n)
    (h : IsUnit (B.toSquare n)) :
    ∃ I, finiteInverse? B = some I ∧ I.rows = n ∧ I.cols = n ∧
      I.toSquare n = (B.toSquare n)⁻¹ := by
  cases hinverse : Elimination.inverse? B with
  | none => exact absurd h ((Elimination.inverse?_eq_none_iff hrows hcols).mp hinverse)
  | some I =>
    obtain ⟨hI, hI', -, heq⟩ := Elimination.toSquare_of_inverse? hrows hcols hinverse
    refine ⟨I, ?_, hI, hI', heq⟩
    have hfinite : I.data.all isFinite = true := by simp [isFinite]
    simp only [finiteInverse?, hinverse, hfinite, if_true]

end Field

end BlockJacobi

end LeastSquares
