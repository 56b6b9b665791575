/-
LeastSquares.Proofs.Elimination — elimination without row exchanges is exact over a field.

The stages of an elimination are the rows of an upper triangle: stage `k` keeps its pivot in column
`k` and the rest of its row behind (`Stage.upper`). Taking away the outer product of that row
divided by its pivot is what elimination does to the rows behind, so the matrix is the sum of these
products over all stages (`factorFrom_spec`), and solving recurses over the same sum
(`solveFrom_spec`). Together: whenever `Symmetric.factorization` finds a factorisation of a
well-formed symmetric matrix, it is exact (`exact_factorization`).
-/
import Mathlib.Tactic.FieldSimp
import LeastSquares.Proofs.Factorization

namespace LeastSquares.Symmetric

open Matrix

variable {K : Type} [Field K]

/-! ## The rows of the upper triangle -/

/-- The row that stage number `k` keeps. -/
def Stage.upper (k : Nat) (stage : Stage K) : SparseRow K := (k, stage.pivot) :: stage.rest

theorem entry_upper_self {k : Nat} {stage : Stage K} (a : (stage.upper k).Ascending) :
    (stage.upper k).entry k = stage.pivot := by
  have hrest : SparseRow.entry stage.rest k = 0 := a.entry_rest (Nat.le_refl k)
  rw [Stage.upper, SparseRow.entry_cons, if_pos rfl, hrest, add_zero]

theorem entry_upper_of_lt {k i : Nat} (stage : Stage K) (hi : k < i) :
    (stage.upper k).entry i = SparseRow.entry stage.rest i := by
  rw [Stage.upper, SparseRow.entry_cons, if_neg (Nat.ne_of_lt hi), zero_add]

/-- In front of the diagonal the row is zero. -/
theorem entry_upper_eq_zero {k i : Nat} {stage : Stage K} (a : (stage.upper k).Ascending)
    (hi : i < k) : (stage.upper k).entry i = 0 := by
  have hrest : SparseRow.entry stage.rest i = 0 := a.entry_rest (Nat.le_of_lt hi)
  rw [Stage.upper, SparseRow.entry_cons, if_neg (Nat.ne_of_gt hi), hrest, add_zero]

/-- Stages with the numbers from `k` to `n`, each an ascending row with its first column on the
diagonal, where it is not zero. -/
inductive Staged (n : Nat) : Nat → List (Stage K) → Prop where
  | nil : Staged n n []
  | cons {k : Nat} {stage : Stage K} {stages : List (Stage K)} (pivot_ne : stage.pivot ≠ 0)
      (ascending : (stage.upper k).Ascending) (lt : ∀ p ∈ stage.upper k, p.1 < n)
      (rest : Staged n (k + 1) stages) : Staged n k (stage :: stages)

/-- The sum of the products that the stages from number `k` on take away. -/
def product (k : Nat) : List (Stage K) → Nat → Nat → K
  | [], _, _ => 0
  | stage :: stages, i, j =>
    (stage.upper k).entry i * (stage.upper k).entry j / stage.pivot + product (k + 1) stages i j

theorem product_comm (k : Nat) (stages : List (Stage K)) (i j : Nat) :
    product k stages i j = product k stages j i := by
  induction stages generalizing k with
  | nil => rfl
  | cons stage stages ih => rw [product, product, ih, mul_comm (SparseRow.entry _ i)]

namespace Staged

variable {n k : Nat} {stages : List (Stage K)}

theorem length_eq (s : Staged n k stages) : k + stages.length = n := by
  induction s with
  | nil => rfl
  | cons _ _ _ _ ih =>
    rw [List.length_cons]
    omega

/-- Later stages leave the rows in front of them alone. -/
theorem product_eq_zero (s : Staged n k stages) {i : Nat} (hi : i < k) (j : Nat) :
    product k stages i j = 0 := by
  induction s with
  | nil => rfl
  | cons _ ascending _ _ ih =>
    rw [product, entry_upper_eq_zero ascending hi, zero_mul, zero_div, zero_add, ih (by omega)]

end Staged

/-! ## Factoring -/

section Factoring

variable [BEq K] [LawfulBEq K]

/-- What is left to factor is the sum of the products of the stages that are found. -/
theorem factorFrom_spec {n k count : Nat} {A : Symmetric K} {stages : List (Stage K)}
    (h : factorFrom k count A = some stages) (w : A.WellFormed) (hsize : A.size = n)
    (hk : k + count = n) :
    Staged n k stages ∧
      ∀ i j, k ≤ i → i ≤ j → j < n → (A.row i).entry j = product k stages i j := by
  induction count generalizing k A stages with
  | zero =>
    simp only [factorFrom, Option.some.injEq] at h
    subst h
    obtain rfl : k = n := hk
    refine ⟨.nil, ?_⟩
    intro i j hi hij hj
    omega
  | succ count ih =>
    have hkn : k < n := by omega
    rw [factorFrom] at h
    cases hrow : A.row k with
    | nil => simp [hrow] at h
    | cons first rest =>
      obtain ⟨column, pivot⟩ := first
      simp only [hrow] at h
      split at h
      · rename_i hfirst
        obtain ⟨rfl, hpivot⟩ := hfirst
        have hpivot : pivot ≠ 0 := by simpa using hpivot
        obtain ⟨found, hfound, rfl⟩ := Option.map_eq_some_iff.mp h
        have hupper : (Stage.mk pivot rest).upper column = A.row column := hrow.symm
        have hascending : SparseRow.Ascending ((column, pivot) :: rest) := by
          rw [← hrow]
          exact w.ascending column
        have hlt : ∀ p ∈ (column, pivot) :: rest, p.1 < n := by
          intro p hp
          rw [← hrow] at hp
          rw [← hsize]
          exact (w.bounds column p hp).2
        have hformed := w.addOuter (fun x => -(x / pivot)) hascending.tail
          (fun p hp => by rw [hsize]; exact hlt p (List.mem_cons_of_mem _ hp))
        obtain ⟨staged, hentry⟩ := ih hfound hformed (by rw [size_addOuter]; exact hsize)
          (by omega)
        refine ⟨.cons hpivot hascending hlt staged, ?_⟩
        intro i j hi hij hj
        rw [product, hupper]
        rcases Nat.eq_or_lt_of_le hi with heq | hlt'
        · -- the row of the pivot itself: later stages do not reach it
          subst heq
          have hdiagonal : (A.row column).entry column = pivot := by
            rw [← hupper]
            exact entry_upper_self hascending
          rw [staged.product_eq_zero (Nat.lt_succ_self column), hdiagonal, add_zero,
            mul_comm, mul_div_assoc, div_self hpivot, mul_one]
        · -- behind it, what the stage took away is put back
          have hafter := hentry i j hlt' hij hj
          rw [entry_addOuter _ (by simp) hascending.tail A hij (by omega)] at hafter
          rw [← hafter, ← hupper, entry_upper_of_lt _ hlt', entry_upper_of_lt _ (by omega)]
          ring
      · cases h

end Factoring

/-! ## The triangles -/

/-- The entry in row `m` and column `j` of the upper triangle. -/
def upperAt (k : Nat) (stages : List (Stage K)) (m j : Nat) : K :=
  match stages[m]? with
  | some stage => (stage.upper (k + m)).entry j
  | none => 0

/-- The pivot of stage `m`. -/
def pivotAt (stages : List (Stage K)) (m : Nat) : K :=
  match stages[m]? with
  | some stage => stage.pivot
  | none => 0

theorem upperAt_succ (k : Nat) (stage : Stage K) (stages : List (Stage K)) (m j : Nat) :
    upperAt k (stage :: stages) (m + 1) j = upperAt (k + 1) stages m j := by
  have hnumber : k + (m + 1) = k + 1 + m := by omega
  unfold upperAt
  rw [List.getElem?_cons_succ, hnumber]

theorem pivotAt_succ (stage : Stage K) (stages : List (Stage K)) (m : Nat) :
    pivotAt (stage :: stages) (m + 1) = pivotAt stages m := rfl

/-- The sum of the products is the product of the triangles. -/
theorem product_eq_sum (k : Nat) (stages : List (Stage K)) (i j : Nat) :
    product k stages i j = ∑ m ∈ Finset.range stages.length,
      upperAt k stages m i / pivotAt stages m * upperAt k stages m j := by
  induction stages generalizing k with
  | nil => rfl
  | cons stage stages ih =>
    rw [product, ih, List.length_cons, Finset.sum_range_succ']
    simp only [upperAt_succ, pivotAt_succ]
    show _ = _ + (stage.upper k).entry i / stage.pivot * (stage.upper k).entry j
    ring

namespace Staged

variable {n k : Nat} {stages : List (Stage K)}

/-- Row `m` of the triangle is zero in front of the diagonal, and the pivot is on it. -/
theorem upperAt_spec (s : Staged n k stages) {m : Nat} (hm : m < stages.length) :
    pivotAt stages m ≠ 0 ∧ upperAt k stages m (k + m) = pivotAt stages m ∧
      ∀ j, j < k + m → upperAt k stages m j = 0 := by
  induction s generalizing m with
  | nil => simp at hm
  | @cons k stage stages pivot_ne ascending _ _ ih =>
    cases m with
    | zero =>
      exact ⟨pivot_ne, entry_upper_self ascending, fun j hj => entry_upper_eq_zero ascending hj⟩
    | succ m =>
      have hnumber : k + (m + 1) = k + 1 + m := by omega
      simp only [upperAt_succ, pivotAt_succ, hnumber]
      exact ih (by simpa using hm)

end Staged

/-! ## Solving -/

/-- Taking multiples from a right side takes them entry by entry. -/
theorem getD_foldl_modify (factor : K → K) (hzero : factor 0 = 0)
    (hadd : ∀ x y, factor (x + y) = factor x + factor y) (row : SparseRow K) (b : Array K)
    {i : Nat} (hi : i < b.size) :
    (row.foldl (fun b p => b.modify p.1 fun y => y - factor p.2) b).getD i 0 =
      b.getD i 0 - factor (row.entry i) := by
  induction row generalizing b with
  | nil => simp [hzero]
  | cons p row ih =>
    have hsize : i < (b.modify p.1 fun y => y - factor p.2).size := by rwa [Array.size_modify]
    have hfirst : (b.modify p.1 fun y => y - factor p.2).getD i 0 =
        b.getD i 0 - if p.1 = i then factor p.2 else 0 := by
      simp only [Array.getD_eq_getD_getElem?, Array.getElem?_modify, Array.getElem?_eq_getElem hi]
      split <;> simp
    rw [List.foldl_cons, ih _ hsize, hfirst, SparseRow.entry_cons, hadd]
    split
    · ring
    · rw [hzero]
      ring

theorem size_foldl_modify (factor : K → K) (row : SparseRow K) (b : Array K) :
    (row.foldl (fun b p => b.modify p.1 fun y => y - factor p.2) b).size = b.size := by
  induction row generalizing b with
  | nil => rfl
  | cons p row ih => rw [List.foldl_cons, ih, Array.size_modify]

/-- The products of a sparse row with a column of numbers, summed, are those of its entries. -/
theorem foldl_products {n : Nat} (row : SparseRow K) (hlt : ∀ p ∈ row, p.1 < n) (x : Array K)
    (acc : K) :
    row.foldl (fun acc p => acc + p.2 * x.getD p.1 0) acc =
      acc + ∑ j ∈ Finset.range n, row.entry j * x.getD j 0 := by
  induction row generalizing acc with
  | nil => simp
  | cons p row ih =>
    have hfirst : ∑ j ∈ Finset.range n, (if p.1 = j then p.2 else 0) * x.getD j 0 =
        p.2 * x.getD p.1 0 := by
      simp only [ite_mul, zero_mul]
      rw [Finset.sum_ite_eq, if_pos (Finset.mem_range.mpr (hlt p List.mem_cons_self))]
    rw [List.foldl_cons, ih fun q hq => hlt q (List.mem_cons_of_mem _ hq)]
    simp only [SparseRow.entry_cons, add_mul, Finset.sum_add_distrib, hfirst]
    ring

section Solving

variable [BEq K] {n : Nat}

theorem size_carry (stage : Stage K) (top : K) (b : Array K) :
    (carry stage top b).size = b.size := by
  unfold carry
  split
  · rfl
  · exact size_foldl_modify (fun y => y / stage.pivot * top) stage.rest b

variable [LawfulBEq K]

theorem getD_carry (stage : Stage K) (top : K) (b : Array K) {i : Nat} (hi : i < b.size) :
    (carry stage top b).getD i 0 =
      b.getD i 0 - SparseRow.entry stage.rest i / stage.pivot * top := by
  unfold carry
  by_cases htop : top = 0
  · rw [if_pos (by simpa using htop), htop, mul_zero, sub_zero]
  · rw [if_neg (by simpa using htop)]
    exact getD_foldl_modify (fun y => y / stage.pivot * top) (by simp)
      (fun x y => by rw [add_div, add_mul]) stage.rest b hi

/-- The solution keeps what stands in front of the stages, and the sum of the products takes the
rest of it to the right side. -/
theorem solveFrom_spec {k : Nat} {stages : List (Stage K)} (s : Staged n k stages) {b : Array K}
    (hb : b.size = n) :
    (solveFrom k stages b).size = n ∧
      (∀ i, i < k → (solveFrom k stages b).getD i 0 = b.getD i 0) ∧
      ∀ i, k ≤ i → i < n →
        ∑ j ∈ Finset.range n, product k stages i j * (solveFrom k stages b).getD j 0 =
          b.getD i 0 := by
  induction s generalizing b with
  | nil =>
    refine ⟨hb, fun i _ => rfl, ?_⟩
    intro i hi hin
    omega
  | @cons k stage stages pivot_ne ascending lt rest ih =>
    have hk : k < n := lt (k, stage.pivot) List.mem_cons_self
    have hlt : ∀ p ∈ stage.rest, p.1 < n := fun p hp => lt p (List.mem_cons_of_mem _ hp)
    obtain ⟨hsize, hfront, hbehind⟩ := ih (b := carry stage (b.getD k 0) b)
      (by rw [size_carry]; exact hb)
    rw [solveFrom]
    generalize hx : solveFrom (k + 1) stages (carry stage (b.getD k 0) b) = x at *
    generalize hknown : stage.rest.foldl (fun acc p => acc + p.2 * x.getD p.1 0) 0 = known
    rw [foldl_products stage.rest hlt, zero_add] at hknown
    have hset : ∀ j, (x.setIfInBounds k ((b.getD k 0 - known) / stage.pivot)).getD j 0 =
        if j = k then (b.getD k 0 - known) / stage.pivot else x.getD j 0 := fun j => by
      simp only [getD_setIfInBounds, hsize, hk, and_true]
    have hrestAt : SparseRow.entry stage.rest k = 0 := ascending.entry_rest (Nat.le_refl k)
    -- the row of this stage takes the solution to its entry of the right side
    have hrow : ∑ j ∈ Finset.range n, (stage.upper k).entry j *
        (x.setIfInBounds k ((b.getD k 0 - known) / stage.pivot)).getD j 0 = b.getD k 0 := by
      have hsplit : ∀ j ∈ Finset.range n, (stage.upper k).entry j *
          (x.setIfInBounds k ((b.getD k 0 - known) / stage.pivot)).getD j 0 =
            (if k = j then b.getD k 0 - known else 0) +
              SparseRow.entry stage.rest j * x.getD j 0 := by
        intro j _
        rw [hset, Stage.upper, SparseRow.entry_cons]
        by_cases hjk : j = k
        · subst hjk
          rw [if_pos rfl, if_pos rfl, if_pos rfl, hrestAt, add_zero, zero_mul, add_zero,
            mul_div_cancel₀ _ pivot_ne]
        · have hkj : ¬ k = j := fun h => hjk h.symm
          rw [if_neg hjk, if_neg hkj, if_neg hkj, zero_add, zero_add]
      rw [Finset.sum_congr rfl hsplit, Finset.sum_add_distrib, Finset.sum_ite_eq,
        if_pos (Finset.mem_range.mpr hk), hknown]
      ring
    -- later stages do not see the entry that this one sets
    have hlater : ∀ i, ∑ j ∈ Finset.range n, product (k + 1) stages i j *
        (x.setIfInBounds k ((b.getD k 0 - known) / stage.pivot)).getD j 0 =
          ∑ j ∈ Finset.range n, product (k + 1) stages i j * x.getD j 0 := by
      intro i
      refine Finset.sum_congr rfl fun j _ => ?_
      rw [hset]
      by_cases hjk : j = k
      · subst hjk
        rw [product_comm, rest.product_eq_zero (Nat.lt_succ_self j), zero_mul, zero_mul]
      · rw [if_neg hjk]
    refine ⟨by rw [Array.size_setIfInBounds]; exact hsize, ?_, ?_⟩
    · intro i hi
      have hrestI : SparseRow.entry stage.rest i = 0 := ascending.entry_rest (Nat.le_of_lt hi)
      rw [hset, if_neg (Nat.ne_of_lt hi), hfront i (by omega), getD_carry stage _ b (by omega),
        hrestI, zero_div, zero_mul, sub_zero]
    · intro i hi hin
      have hsum : ∑ j ∈ Finset.range n, product k (stage :: stages) i j *
          (x.setIfInBounds k ((b.getD k 0 - known) / stage.pivot)).getD j 0 =
            (stage.upper k).entry i / stage.pivot * b.getD k 0 +
              ∑ j ∈ Finset.range n, product (k + 1) stages i j * x.getD j 0 := by
        simp only [product, add_mul, Finset.sum_add_distrib, hlater i]
        refine congrArg (· + _) ?_
        calc _ = ∑ j ∈ Finset.range n, (stage.upper k).entry i / stage.pivot *
                ((stage.upper k).entry j *
                  (x.setIfInBounds k ((b.getD k 0 - known) / stage.pivot)).getD j 0) :=
              Finset.sum_congr rfl fun j _ => by ring
          _ = _ := by rw [← Finset.mul_sum, hrow]
      rw [hsum]
      rcases Nat.eq_or_lt_of_le hi with heq | hlt'
      · subst heq
        have hnone : ∑ j ∈ Finset.range n, product (k + 1) stages k j * x.getD j 0 = 0 := by
          refine Finset.sum_eq_zero fun j _ => ?_
          rw [rest.product_eq_zero (Nat.lt_succ_self k), zero_mul]
        rw [hnone, entry_upper_self ascending, div_self pivot_ne, one_mul, add_zero]
      · rw [hbehind i hlt' hin, getD_carry stage _ b (by omega), entry_upper_of_lt stage hlt']
        ring

/-- Every entry of a factored matrix is a sum of products of its stages. -/
theorem get_eq_product {A : Symmetric K} {stages : List (Stage K)} (hsize : A.size = n)
    (w : A.WellFormed) (h : A.factor = some stages) :
    Staged n 0 stages ∧ ∀ i j, i < n → j < n → A.get i j = product 0 stages i j := by
  obtain ⟨staged, hentry⟩ := factorFrom_spec h w hsize (by omega)
  refine ⟨staged, ?_⟩
  intro i j hi hj
  have hget := hentry (min i j) (max i j) (Nat.zero_le _) (by omega) (by omega)
  rw [get, hget]
  rcases Nat.le_total i j with hij | hij
  · rw [Nat.min_eq_left hij, Nat.max_eq_right hij]
  · rw [Nat.min_eq_right hij, Nat.max_eq_left hij, product_comm]

/-- **Elimination is exact.** Over a field, a factorisation that elimination finds for a
well-formed symmetric matrix is an exact one. -/
theorem exact_factorization {A : Symmetric K} (hsize : A.size = n) (w : A.WellFormed)
    {f : Factorization K} (h : A.factorization = some f) : f.Exact (A.toMatrix n) := by
  obtain ⟨stages, hstages, rfl⟩ := Option.map_eq_some_iff.mp h
  obtain ⟨staged, hproduct⟩ := get_eq_product hsize w hstages
  have hlength : stages.length = n := by
    have := staged.length_eq
    omega
  have hspec : ∀ m : Fin n, pivotAt stages m ≠ 0 ∧ upperAt 0 stages m m = pivotAt stages m ∧
      ∀ j : Nat, j < m → upperAt 0 stages m j = 0 := by
    intro m
    have := staged.upperAt_spec (m := m) (by omega)
    rwa [Nat.zero_add] at this
  refine ⟨⟨1, 1, Matrix.of fun i m => upperAt 0 stages m i / pivotAt stages m,
    Matrix.of fun m j => upperAt 0 stages m j, ?_, ?_, ?_, ?_, ?_⟩, ?_⟩
  · intro i m him
    have him : i < m := him
    rw [of_apply, (hspec m).2.2 i him, zero_div]
  · intro i
    rw [of_apply, (hspec i).2.1, div_self (hspec i).1]
  · intro m j hjm
    have hjm : j < m := hjm
    rw [of_apply, (hspec m).2.2 j hjm]
  · ext i j
    rw [submatrix_apply, mul_apply, toMatrix_apply]
    show A.get i j = _
    rw [hproduct i j i.isLt j.isLt, product_eq_sum, hlength, Finset.sum_range]
    rfl
  · apply List.ext_getElem
    · simp [hlength]
    · intro m hm hm'
      have hm : m < n := by simpa [hlength] using hm
      have hstage : stages[m]? = some stages[m] := List.getElem?_eq_getElem (by omega)
      have hpivot : pivotAt stages m = stages[m].pivot := by simp only [pivotAt, hstage]
      rw [List.getElem_map, List.getElem_ofFn, of_apply, (hspec ⟨m, hm⟩).2.1, hpivot]
  · intro _ B hB i k hk
    have hsolved : ∀ j : Fin n, (solveColumns stages B).get j k =
        (solve stages (Array.ofFn fun (i : Fin B.rows) => B.get i k)).getD j 0 := by
      intro j
      simp only [solveColumns]
      rw [Dense.get_ofFn_of_lt _ (by omega) hk]
      simp [Array.getD_eq_getD_getElem?, hk]
    have hright : (Array.ofFn fun (i : Fin B.rows) => B.get i k).getD i 0 = B.get i k := by
      have hi : (i : Nat) < B.rows := by omega
      simp [Array.getD_eq_getD_getElem?, hi]
    have hsum := (solveFrom_spec staged
      (b := Array.ofFn fun (i : Fin B.rows) => B.get i k) (by simpa using hB)).2.2 i
      (Nat.zero_le _) i.isLt
    rw [hright, Finset.sum_range] at hsum
    refine Eq.trans (Finset.sum_congr rfl fun j _ => ?_) hsum
    rw [toMatrix_apply, hproduct i j i.isLt j.isLt]
    exact congrArg _ (hsolved j)

end Solving

end LeastSquares.Symmetric
