/-
LeastSquares.Proofs.Pivoting — elimination with row exchanges misses no inverse.

A column of numbers solves rows with right sides when every row takes it to its own right side
(`Solves`). Exchanging rows does not change what solves them (`solves_bringFirst`), and with the
pivot row satisfied a column solves another row exactly when its tail solves what is left of that
row (`dot_cons_eq_iff`). So the two outcomes of a factorisation are told by one induction each:

* with the stages that are found, every right side is solved (`solves_solve`);
* where none are found there is a column other than zero that every row takes to zero
  (`exists_null`). The row of the largest leading entry comes first, so that a pivot of zero means
  a leading column of zeros.

For a square matrix this says that `inverse?` finds the inverse whenever there is one
(`inverse?_eq_none_iff`, `toSquare_of_inverse?`).
-/
import Mathlib.Tactic.FieldSimp
import Mathlib.Tactic.LinearCombination
import LeastSquares.Dense.Elimination
import LeastSquares.Proofs.Factorization

namespace LeastSquares

open Matrix

/-- The square matrix of the first rows and columns. -/
def Dense.toSquare {K : Type} [Zero K] (A : Dense K) (n : Nat) : Matrix (Fin n) (Fin n) K :=
  Matrix.of fun i j => A.get i j

@[simp] theorem Dense.toSquare_apply {K : Type} [Zero K] (A : Dense K) (n : Nat) (i j : Fin n) :
    A.toSquare n i j = A.get i j := rfl

namespace Elimination

/-! ## Exchanging rows -/

section Exchange

variable {β γ : Type}

theorem bringFirst_perm (k : Nat) (xs : List β) : (bringFirst k xs).Perm xs := by
  cases xs with
  | nil => exact .refl _
  | cons x xs =>
    cases k with
    | zero => exact .refl _
    | succ k =>
      rw [bringFirst]
      split
      · exact .refl _
      · rename_i y hy
        obtain ⟨hk, rfl⟩ := List.getElem?_eq_some_iff.mp hy
        have hset : (xs.set k x).Perm (x :: xs.eraseIdx k) := List.set_perm_cons_eraseIdx hk x
        have hback : (xs[k] :: xs.eraseIdx k).Perm xs := List.getElem_cons_eraseIdx_perm hk
        exact (hset.cons _).trans ((List.Perm.swap _ _ _).trans (hback.cons _))

theorem bringFirst_map (f : β → γ) (k : Nat) (xs : List β) :
    bringFirst k (xs.map f) = (bringFirst k xs).map f := by
  cases xs with
  | nil => rfl
  | cons x xs =>
    cases k with
    | zero => rfl
    | succ k =>
      rw [List.map_cons, bringFirst, bringFirst, List.getElem?_map]
      cases xs[k]? with
      | none => rfl
      | some y => simp

/-- Rows and right sides are exchanged together. -/
theorem zip_bringFirst (k : Nat) {xs : List β} {ys : List γ} (h : xs.length = ys.length) :
    (bringFirst k xs).zip (bringFirst k ys) = bringFirst k (xs.zip ys) := by
  refine (List.zip_of_prod ?_ ?_).symm
  · rw [← bringFirst_map, List.map_fst_zip (Nat.le_of_eq h)]
  · rw [← bringFirst_map, List.map_snd_zip (Nat.le_of_eq h.symm)]

theorem head?_bringFirst {k : Nat} {xs : List β} (h : k < xs.length) :
    (bringFirst k xs).head? = xs[k]? := by
  cases xs with
  | nil => simp at h
  | cons x xs =>
    cases k with
    | zero => rfl
    | succ k =>
      have hk : k < xs.length := by simpa using h
      simp [bringFirst, List.getElem?_eq_getElem hk]

end Exchange

/-! ## The row of the largest leading entry -/

section Largest

variable {K : Type} [Field K] [LinearOrder K]

/-- Past a front of numbers that are no larger than the best of them, the search ends at a number
of the whole list that is as large as any. -/
theorem getElem?_largestFrom (xs front : List K) {best : K} {at_ : Nat}
    (hat : ∃ z, front[at_]? = some z ∧ magnitude z = best)
    (hbest : ∀ y ∈ front, magnitude y ≤ best) :
    ∃ z, (front ++ xs)[largestFrom best at_ front.length xs]? = some z ∧
      ∀ y ∈ front ++ xs, magnitude y ≤ magnitude z := by
  induction xs generalizing front best at_ with
  | nil =>
    obtain ⟨z, hz, hsize⟩ := hat
    rw [List.append_nil]
    exact ⟨z, hz, fun y hy => by rw [hsize]; exact hbest y hy⟩
  | cons x xs ih =>
    have hfront : front ++ x :: xs = (front ++ [x]) ++ xs := by simp
    have hlength : front.length + 1 = (front ++ [x]).length := by simp
    rw [largestFrom, hfront, hlength]
    split
    · rename_i hlarger
      refine ih (front ++ [x]) ⟨x, by simp, rfl⟩ fun y hy => ?_
      rcases List.mem_append.mp hy with hy | hy
      · exact le_trans (hbest y hy) (le_of_lt hlarger)
      · rw [List.mem_singleton.mp hy]
    · rename_i hlarger
      obtain ⟨z, hz, hsize⟩ := hat
      refine ih (front ++ [x]) ⟨z, ?_, hsize⟩ fun y hy => ?_
      · obtain ⟨hlt, -⟩ := List.getElem?_eq_some_iff.mp hz
        rw [List.getElem?_append_left hlt, hz]
      · rcases List.mem_append.mp hy with hy | hy
        · exact hbest y hy
        · rw [List.mem_singleton.mp hy]
          exact not_lt.mp hlarger

/-- The number at the position of the largest one is as large as any. -/
theorem getElem?_largest {xs : List K} (h : xs ≠ []) :
    ∃ z, xs[largest xs]? = some z ∧ ∀ y ∈ xs, magnitude y ≤ magnitude z := by
  cases xs with
  | nil => exact absurd rfl h
  | cons x xs =>
    exact getElem?_largestFrom xs [x] ⟨x, rfl, rfl⟩ fun y hy => by rw [List.mem_singleton.mp hy]

variable [IsStrictOrderedRing K]

theorem magnitude_eq_abs (x : K) : magnitude x = |x| := by
  unfold magnitude
  split
  · rename_i h
    exact (abs_of_neg h).symm
  · rename_i h
    exact (abs_of_nonneg (not_lt.mp h)).symm

/-- A row comes first, and if its leading entry is zero then so are those of all rows. -/
theorem exists_bringFirst_largest {rows : List (List K)} (h : rows ≠ []) :
    ∃ top rest, bringFirst (largest (rows.map lead)) rows = top :: rest ∧
      (lead top = 0 → ∀ row ∈ rows, lead row = 0) := by
  have hleads : rows.map lead ≠ [] := by simpa using h
  obtain ⟨z, hz, hlargest⟩ := getElem?_largest hleads
  rw [List.getElem?_map] at hz
  obtain ⟨top, htop, rfl⟩ := Option.map_eq_some_iff.mp hz
  obtain ⟨hlt, -⟩ := List.getElem?_eq_some_iff.mp htop
  have hhead := (head?_bringFirst hlt).trans htop
  obtain ⟨rest, hrest⟩ := List.head?_eq_some_iff.mp hhead
  refine ⟨top, rest, hrest, fun hzero row hrow => ?_⟩
  have hle := hlargest (lead row) (List.mem_map_of_mem hrow)
  rw [magnitude_eq_abs, magnitude_eq_abs, hzero, abs_zero] at hle
  exact abs_nonpos_iff.mp hle

end Largest

/-! ## Sums of products -/

section Products

variable {K : Type} [Field K]

theorem dot_eq_add (acc : K) (xs ys : List K) : dot acc xs ys = acc + dot 0 xs ys := by
  induction xs generalizing acc ys with
  | nil => simp [dot]
  | cons x xs ih =>
    cases ys with
    | nil => simp [dot]
    | cons y ys => rw [dot, dot, ih, ih (0 + x * y), zero_add, add_assoc]

theorem dot_cons (x y : K) (xs ys : List K) :
    dot 0 (x :: xs) (y :: ys) = x * y + dot 0 xs ys := by
  rw [dot, dot_eq_add, zero_add]

theorem dot_replicate_zero (xs : List K) (n : Nat) : dot 0 xs (List.replicate n 0) = 0 := by
  induction xs generalizing n with
  | nil => rfl
  | cons x xs ih =>
    cases n with
    | zero => rfl
    | succ n => rw [List.replicate_succ, dot_cons, ih, mul_zero, zero_add]

theorem dot_eq_sum {xs ys : List K} (h : xs.length = ys.length) :
    dot 0 xs ys = ∑ j ∈ Finset.range xs.length, xs.getD j 0 * ys.getD j 0 := by
  induction xs generalizing ys with
  | nil => rfl
  | cons x xs ih =>
    cases ys with
    | nil => simp at h
    | cons y ys =>
      rw [dot_cons, ih (by simpa using h), List.length_cons, Finset.sum_range_succ', add_comm]
      rfl

variable [BEq K]

theorem length_reduce {pivotRow row : List K} (multiple : K) (h : row.length = pivotRow.length) :
    (reduce pivotRow multiple row).length = row.length := by
  unfold reduce
  split
  · rfl
  · rw [List.length_zipWith, h, Nat.min_self]

variable [LawfulBEq K]

/-- Taking a multiple of the pivot row away takes away the multiple of its product. -/
theorem dot_reduce {pivotRow row : List K} (multiple : K) (h : row.length = pivotRow.length)
    (xs : List K) :
    dot 0 (reduce pivotRow multiple row) xs = dot 0 row xs - multiple * dot 0 pivotRow xs := by
  unfold reduce
  split
  · rename_i hzero
    rw [eq_of_beq hzero, zero_mul, sub_zero]
  · induction row generalizing pivotRow xs with
    | nil =>
      obtain rfl : pivotRow = [] := List.eq_nil_of_length_eq_zero h.symm
      simp [dot]
    | cons x row ih =>
      cases pivotRow with
      | nil => simp at h
      | cons p pivotRow =>
        cases xs with
        | nil => simp [dot]
        | cons y ys =>
          rw [List.zipWith_cons_cons, dot_cons, dot_cons, dot_cons, ih (by simpa using h)]
          ring

/-- Where the pivot row is satisfied, a row is exactly if what is left of it is. -/
theorem dot_cons_eq_iff {pivot x t y : K} {pivotRow row xs : List K} (hpivot : pivot ≠ 0)
    (hrow : row.length = pivotRow.length + 1) (htop : pivot * x + dot 0 pivotRow xs = t) :
    dot 0 row (x :: xs) = y ↔
      dot 0 (reduce pivotRow (lead row / pivot) row.tail) xs = y - lead row / pivot * t := by
  cases row with
  | nil => simp at hrow
  | cons l row =>
    have hlead : lead (l :: row) = l := rfl
    rw [List.tail_cons, hlead, dot_reduce _ (by simpa using hrow), dot_cons, ← htop]
    have hcancel : l / pivot * (pivot * x + dot 0 pivotRow xs) =
        l * x + l / pivot * dot 0 pivotRow xs := by
      field_simp
    rw [hcancel]
    constructor
    · intro h
      linear_combination h
    · intro h
      linear_combination h

end Products

/-! ## Systems -/

/-- `n` rows of `n` numbers. -/
structure Square {β : Type} (n : Nat) (rows : List (List β)) : Prop where
  length_eq : rows.length = n
  length_row : ∀ row ∈ rows, row.length = n

theorem Square.bringFirst {β : Type} {n : Nat} {rows : List (List β)} (sq : Square n rows)
    (k : Nat) : Square n (bringFirst k rows) where
  length_eq := (bringFirst_perm k rows).length_eq.trans sq.length_eq
  length_row := fun row hrow => sq.length_row row ((bringFirst_perm k rows).mem_iff.mp hrow)

/-- Every row takes a column of numbers to its own right side. -/
def Solves {K : Type} [Field K] (rows : List (List K)) (b x : List K) : Prop :=
  ∀ e ∈ rows.zip b, dot 0 e.1 x = e.2

section Systems

variable {K : Type} [Field K]

theorem solves_bringFirst {rows : List (List K)} {b : List K} (k : Nat)
    (h : rows.length = b.length) (x : List K) :
    Solves (bringFirst k rows) (bringFirst k b) x ↔ Solves rows b x := by
  unfold Solves
  rw [zip_bringFirst k h]
  simp only [(bringFirst_perm k _).mem_iff]

/-- What is left of the rows behind the pivot row. -/
def reducedRows [BEq K] (top : List K) (rest : List (List K)) : List (List K) :=
  rest.map fun row => reduce top.tail (lead row / lead top) row.tail

theorem square_reducedRows [BEq K] {n : Nat} {top : List K} {rest : List (List K)}
    (sq : Square (n + 1) (top :: rest)) : Square n (reducedRows top rest) where
  length_eq := by
    have hlength := sq.length_eq
    simpa [reducedRows] using hlength
  length_row := by
    intro row hrow
    obtain ⟨row, hmem, rfl⟩ := List.mem_map.mp hrow
    have htop := sq.length_row top List.mem_cons_self
    have hrow := sq.length_row row (List.mem_cons_of_mem _ hmem)
    rw [length_reduce _ (by simp [htop, hrow]), List.length_tail, hrow, Nat.add_sub_cancel]

/-- What is left of the right sides behind that of the pivot row. -/
def reducedSides (top : List K) (t : K) (rest : List (List K)) (b : List K) : List K :=
  List.zipWith (fun y row => y - lead row / lead top * t) b rest

theorem zip_reduced [BEq K] (top : List K) (t : K) (rest : List (List K)) (b : List K) :
    (reducedRows top rest).zip (reducedSides top t rest b) =
      (rest.zip b).map fun e => (reduce top.tail (lead e.1 / lead top) e.1.tail,
        e.2 - lead e.1 / lead top * t) := by
  induction rest generalizing b with
  | nil => rfl
  | cons row rest ih =>
    cases b with
    | nil => rfl
    | cons y b =>
      rw [List.zip_cons_cons, List.map_cons, ← ih]
      rfl

variable [BEq K] [LawfulBEq K]

/-- With the pivot row satisfied, a column solves a system when its tail solves what is left. -/
theorem solves_cons {n : Nat} {top : List K} {rest : List (List K)} {t x : K} {b xs : List K}
    (sq : Square (n + 1) (top :: rest)) (hpivot : lead top ≠ 0)
    (htop : lead top * x + dot 0 top.tail xs = t)
    (h : Solves (reducedRows top rest) (reducedSides top t rest b) xs) :
    Solves (top :: rest) (t :: b) (x :: xs) := by
  have hlength := sq.length_row
  have hcons : top = lead top :: top.tail := by
    cases top with
    | nil => exact absurd rfl hpivot
    | cons l tail => rfl
  have htail : top.length = top.tail.length + 1 := congrArg List.length hcons
  intro e he
  rw [List.zip_cons_cons] at he
  rcases List.mem_cons.mp he with rfl | he
  · rw [hcons, dot_cons]
    exact htop
  · have hrow : e.1.length = top.tail.length + 1 := by
      rw [← htail, hlength top List.mem_cons_self,
        hlength e.1 (List.mem_cons_of_mem _ (List.of_mem_zip he).1)]
    refine (dot_cons_eq_iff hpivot hrow htop).mpr (h (_, e.2 - lead e.1 / lead top * t) ?_)
    rw [zip_reduced]
    exact List.mem_map_of_mem he

end Systems

/-! ## Factorisations -/

section Factorisations

variable {K : Type} [Field K] [LinearOrder K] [IsStrictOrderedRing K]

/-- The first stage of a factorisation, and what is left to be factored. -/
theorem factor_succ {n : Nat} {rows : List (List K)} (sq : Square (n + 1) rows) :
    ∃ top rest, bringFirst (largest (rows.map lead)) rows = top :: rest ∧
      Square (n + 1) (top :: rest) ∧ (lead top = 0 → ∀ row ∈ rows, lead row = 0) ∧
      factor (n + 1) rows =
        if lead top = 0 then none
        else (factor n (reducedRows top rest)).map
          (⟨largest (rows.map lead), lead top, top.tail,
            rest.map fun row => lead row / lead top⟩ :: ·) := by
  have hne : rows ≠ [] := by
    rintro rfl
    have hlength := sq.length_eq
    simp at hlength
  obtain ⟨top, rest, hfirst, hzero⟩ := exists_bringFirst_largest hne
  have hsquare := sq.bringFirst (largest (rows.map lead))
  rw [hfirst] at hsquare
  refine ⟨top, rest, hfirst, hsquare, hzero, ?_⟩
  have hreduced : List.zipWith (fun m row => reduce top.tail m row.tail)
      (rest.map fun row => lead row / lead top) rest = reducedRows top rest := by
    rw [List.zipWith_map_left, List.zipWith_self]
    rfl
  rw [factor]
  simp only [hfirst, hreduced, beq_iff_eq]
  split
  · rfl
  · cases factor n (reducedRows top rest) <;> rfl

/-- **The stages solve.** Where a square system has a factorisation, its stages find a solution for
every right side. -/
theorem solves_solve {n : Nat} {rows : List (List K)} {stages : List (Stage K)}
    (sq : Square n rows) (h : factor n rows = some stages) {b : List K} (hb : b.length = n) :
    (solve stages b).length = n ∧ Solves rows b (solve stages b) := by
  induction n generalizing rows stages b with
  | zero =>
    obtain rfl : rows = [] := List.eq_nil_of_length_eq_zero sq.length_eq
    cases h
    exact ⟨rfl, fun e he => by cases he⟩
  | succ n ih =>
    obtain ⟨top, rest, hfirst, hsquare, -, hfactor⟩ := factor_succ sq
    rw [hfactor] at h
    split at h
    · cases h
    · rename_i hpivot
      obtain ⟨later, hlater, rfl⟩ := Option.map_eq_some_iff.mp h
      have hperm := bringFirst_perm (largest (rows.map lead)) b
      obtain ⟨t, b', hb'⟩ := List.exists_cons_of_length_eq_add_one (hperm.length_eq.trans hb)
      have hrest : rest.length = n := by
        have hlength := hsquare.length_eq
        simpa using hlength
      have hsides : List.zipWith (fun y m => y - m * t) b' (rest.map fun row => lead row / lead top) =
          reducedSides top t rest b' := by
        rw [List.zipWith_map_right]
        rfl
      have hlength : (reducedSides top t rest b').length = n := by
        have hb'length := (congrArg List.length hb').symm.trans (hperm.length_eq.trans hb)
        simp only [List.length_cons, Nat.add_right_cancel_iff] at hb'length
        rw [reducedSides, List.length_zipWith, hb'length, hrest, Nat.min_self]
      obtain ⟨hsolved, hsolves⟩ := ih (square_reducedRows hsquare) hlater hlength
      rw [solve]
      simp only [hb', hsides]
      refine ⟨by rw [List.length_cons, hsolved], ?_⟩
      rw [← solves_bringFirst (largest (rows.map lead)) (sq.length_eq.trans hb.symm), hfirst, hb']
      refine solves_cons hsquare hpivot ?_ hsolves
      field_simp
      ring

/-- **No stages, no inverse.** Where a square system has no factorisation, its rows take some column
other than zero to zero. -/
theorem exists_null {n : Nat} {rows : List (List K)} (sq : Square n rows)
    (h : factor n rows = none) :
    ∃ x : List K, x.length = n ∧ (∃ c ∈ x, c ≠ 0) ∧ Solves rows (List.replicate n 0) x := by
  induction n generalizing rows with
  | zero => cases h
  | succ n ih =>
    obtain ⟨top, rest, hfirst, hsquare, hleads, hfactor⟩ := factor_succ sq
    rw [hfactor] at h
    split at h
    · -- the leading column is zero, so that its own unknown is free
      rename_i hzero
      refine ⟨1 :: List.replicate n 0, by simp, ⟨1, List.mem_cons_self, one_ne_zero⟩, ?_⟩
      intro e he
      obtain ⟨hrow, hside⟩ := List.of_mem_zip he
      rw [List.eq_of_mem_replicate hside]
      have hlead := hleads hzero e.1 hrow
      cases hcase : e.1 with
      | nil => rfl
      | cons l row =>
        rw [hcase] at hlead
        have hl : l = 0 := hlead
        rw [hl, dot_cons, zero_mul, zero_add, dot_replicate_zero]
    · rename_i hpivot
      obtain ⟨xs, hlength, hnonzero, hsolves⟩ :=
        ih (square_reducedRows hsquare) (Option.map_eq_none_iff.mp h)
      have hrest : rest.length = n := by
        have hlength := hsquare.length_eq
        simpa using hlength
      have hsides : reducedSides top 0 rest (List.replicate n 0) = List.replicate n 0 := by
        refine List.eq_replicate_iff.mpr ⟨by simp [reducedSides, hrest], fun y hy => ?_⟩
        obtain ⟨k, hk, rfl⟩ := List.mem_iff_getElem.mp hy
        simp [reducedSides]
      have hzeros : bringFirst (largest (rows.map lead)) (List.replicate (n + 1) (0 : K)) =
          List.replicate (n + 1) 0 :=
        List.perm_replicate.mp (bringFirst_perm _ _)
      refine ⟨-(dot 0 top.tail xs / lead top) :: xs, by rw [List.length_cons, hlength], ?_, ?_⟩
      · obtain ⟨c, hc, hne⟩ := hnonzero
        exact ⟨c, List.mem_cons_of_mem _ hc, hne⟩
      · rw [← solves_bringFirst (largest (rows.map lead)) (by simp [sq.length_eq]), hfirst, hzeros,
          List.replicate_succ]
        refine solves_cons hsquare hpivot ?_ (by rw [hsides]; exact hsolves)
        field_simp
        ring

end Factorisations

/-! ## Inverses -/

section Inverses

variable {K : Type} [Field K] {A : Dense K} {n : Nat}

theorem square_toRows (hrows : A.rows = n) (hcols : A.cols = n) : Square n A.toRows where
  length_eq := by simp [Dense.toRows, hrows]
  length_row := by
    intro row hrow
    obtain ⟨i, -, rfl⟩ := List.mem_map.mp hrow
    simp [Dense.row, hcols]

/-- A column that the rows of a matrix take to right sides is taken there by the matrix. -/
theorem solves_toRows (hrows : A.rows = n) (hcols : A.cols = n) {b x : List K} (hb : b.length = n)
    (hx : x.length = n) (h : Solves A.toRows b x) :
    (A.toSquare n *ᵥ fun j => x.getD j 0) = fun i : Fin n => b.getD i 0 := by
  funext i
  have hi : (i : Nat) < b.length := by rw [hb]; exact i.isLt
  have hmem : (A.row i, b[(i : Nat)]) ∈ A.toRows.zip b := by
    refine List.mem_iff_getElem.mpr ⟨i, ?_, ?_⟩
    · simp [Dense.toRows, hrows, hb]
    · simp [Dense.toRows]
  have hrow : dot 0 (A.row i) x = b[(i : Nat)] := h _ hmem
  have hlength : (A.row i).length = n := by simp [Dense.row, hcols]
  rw [dot_eq_sum (hlength.trans hx.symm), hlength, Finset.sum_range] at hrow
  rw [mulVec, dotProduct, List.getD_eq_getElem?_getD, List.getElem?_eq_getElem hi,
    Option.getD_some, ← hrow]
  refine Finset.sum_congr rfl fun j _ => ?_
  simp [Dense.row, List.getD_eq_getElem?_getD, hcols]

variable [LinearOrder K] [IsStrictOrderedRing K]

/-- **The inverse that is found is the inverse.** -/
theorem toSquare_of_inverse? {I : Dense K} (hrows : A.rows = n) (hcols : A.cols = n)
    (h : inverse? A = some I) :
    I.rows = n ∧ I.cols = n ∧ IsUnit (A.toSquare n) ∧ I.toSquare n = (A.toSquare n)⁻¹ := by
  unfold inverse? at h
  rw [hrows] at h
  cases hfactor : factor n A.toRows with
  | none =>
    rw [hfactor] at h
    cases h
  | some stages =>
    rw [hfactor] at h
    cases h
    have hunit : ∀ k : Nat, (unitColumn n k : List K).length = n := fun k => by simp [unitColumn]
    have hsolved := fun k =>
      solves_solve (square_toRows hrows hcols) hfactor (hunit k)
    have hproduct : A.toSquare n * ((Dense.ofRows n ((List.range n).map fun k =>
        solve stages (unitColumn n k))).transpose).toSquare n = 1 := by
      ext i k
      have hcolumn := congrFun
        (solves_toRows hrows hcols (hunit k) (hsolved k).1 (hsolved k).2) i
      rw [mul_apply]
      refine Eq.trans (Finset.sum_congr rfl fun j _ => ?_) (hcolumn.trans ?_)
      · rw [Dense.toSquare_apply, Dense.toSquare_apply, Dense.get_transpose, Dense.ofRows,
          Dense.get_ofFn_of_lt _ (by simp) j.isLt]
        simp [Array.getD_eq_getD_getElem?, List.getD_eq_getElem?_getD]
      · simp [unitColumn, List.getD_eq_getElem?_getD, one_apply, Fin.ext_iff]
    exact ⟨rfl, by simp [Dense.ofRows], IsUnit.of_mul_eq_one _ hproduct,
      (inv_eq_right_inv hproduct).symm⟩

/-- **No inverse is missed.** A square matrix has none exactly when elimination finds none. -/
theorem inverse?_eq_none_iff (hrows : A.rows = n) (hcols : A.cols = n) :
    inverse? A = none ↔ ¬ IsUnit (A.toSquare n) := by
  constructor
  · intro h hunit
    have hfactor : factor n A.toRows = none := by
      unfold inverse? at h
      rw [hrows] at h
      cases hfactor : factor n A.toRows with
      | none => rfl
      | some stages =>
        rw [hfactor] at h
        cases h
    obtain ⟨x, hx, ⟨c, hc, hne⟩, hsolves⟩ := exists_null (square_toRows hrows hcols) hfactor
    have hnull := solves_toRows hrows hcols (by simp) hx hsolves
    have hzero : (fun i : Fin n => (List.replicate n (0 : K)).getD i 0) = 0 := by
      funext i
      simp [List.getD_eq_getElem?_getD]
    rw [hzero, ← mulVec_zero (A.toSquare n)] at hnull
    obtain ⟨k, hk, rfl⟩ := List.mem_iff_getElem.mp hc
    have hentry := congrFun (mulVec_injective_iff_isUnit.mpr hunit hnull) ⟨k, by omega⟩
    rw [List.getD_eq_getElem?_getD, List.getElem?_eq_getElem hk] at hentry
    exact hne hentry
  · intro h
    cases hinverse : inverse? A with
    | none => rfl
    | some I => exact absurd (toSquare_of_inverse? hrows hcols hinverse).2.2.1 h

end Inverses

end Elimination

end LeastSquares
