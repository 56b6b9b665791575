/-
LeastSquares.Proofs.Estimation — what a computation leaves behind, and what fills it.

Computing goes through a plan, a Jacobian, an algorithm and the averaging of transposed entries.
This module takes the computation apart and puts the parts together again.

* `compute_eq` and `exists_of_compute`: the answer and the state are decided by the plan of the
  request and by what fills it; `answer_fillPlan` says what fills a plan that stores something.
* `answer_estimateValues`: values of a function that is symmetric along a regular pattern are not
  changed by the averaging, so an estimate holds what its algorithm found.
* `factor_cases` and `answer_svd`: with an exact engine the algorithms find the entries of the
  inverse of `J'J`, and those of the weighted sum of the kept directions, which is the same inverse
  where all directions are there and kept (`svd_eq_inverse`).
-/
import LeastSquares.Proofs.Assembly
import LeastSquares.Proofs.Cholesky
import LeastSquares.Proofs.Lookup
import LeastSquares.Proofs.Spectrum
import LeastSquares.Proofs.Transposition

namespace LeastSquares

/-- What a filled or unfilled plan is as an estimate. -/
def Estimate.ofFilled {α : Type} (plan : Plan) : Except Fault (Option (Array α)) → Estimate α
  | .ok (some values) => .ready plan values
  | _ => .failed plan

namespace Covariance

/-! ## Requests and their plans -/

section Requests

variable {α : Type}

/-- The items that a planned request consists of. -/
def itemsOf (pairs : List (Int × Int)) : List Item :=
  pairs.map fun pair => .list [.integer pair.1, .integer pair.2]

/-- The plan of a request, if the request is one. -/
def planOf (problem : Problem α) (request : List Item) : Except Fault Plan :=
  match Request.pairs request with
  | .error e => .error e
  | .ok pairs => (Plan.make problem (itemsOf pairs)).answer

/-- Does a request ask for the blocks of two handles, in either order? -/
def Requested (request : List Item) (i j : Nat) : Prop :=
  ∃ pairs, Request.pairs request = .ok pairs ∧
    (((i : Int), (j : Int)) ∈ pairs ∨ ((j : Int), (i : Int)) ∈ pairs)

theorem position_integer {problem : Problem α} {h : Int} {i : Nat} :
    problem.position (.integer h) = .ok i ↔ h = i ∧ i < problem.blocks.size := by
  rw [← Problem.position?_integer]
  unfold Problem.position
  cases problem.position? (.integer h) with
  | none => simp
  | some k => simp

theorem resolve_pair {problem : Problem α} {a b : Int} {i j : Nat} :
    Plan.resolve problem (.list [.integer a, .integer b]) = .ok (i, j) ↔
      (a = i ∧ i < problem.blocks.size) ∧ b = j ∧ j < problem.blocks.size := by
  rw [← position_integer, ← position_integer]
  simp only [Plan.resolve, Item.members?, bind, Except.bind, pure, Except.pure]
  cases problem.position (.integer a) with
  | error e => simp
  | ok k =>
    cases problem.position (.integer b) with
    | error e => simp
    | ok l => simp

variable {problem : Problem α} {request : List Item} {plan : Plan}

/-- The items of some pairs ask for the blocks that the pairs name. -/
theorem asked_itemsOf {pairs : List (Int × Int)} {i j : Nat} :
    Plan.Asked problem (itemsOf pairs) i j ↔
      (((i : Int), (j : Int)) ∈ pairs ∨ ((j : Int), (i : Int)) ∈ pairs) ∧
        i < problem.blocks.size ∧ j < problem.blocks.size := by
  have hresolved : ∀ {i j : Nat},
      (∃ item ∈ itemsOf pairs, Plan.resolve problem item = .ok (i, j)) ↔
        ((i : Int), (j : Int)) ∈ pairs ∧ i < problem.blocks.size ∧ j < problem.blocks.size := by
    intro i j
    constructor
    · rintro ⟨item, hitem, hresolve⟩
      obtain ⟨⟨a, b⟩, hmem, rfl⟩ := List.mem_map.mp hitem
      obtain ⟨⟨rfl, hi⟩, rfl, hj⟩ := resolve_pair.mp hresolve
      exact ⟨hmem, hi, hj⟩
    · rintro ⟨hmem, hi, hj⟩
      exact ⟨_, List.mem_map.mpr ⟨_, hmem, rfl⟩, resolve_pair.mpr ⟨⟨rfl, hi⟩, rfl, hj⟩⟩
  unfold Plan.Asked
  simp only [and_or_left, exists_or, hresolved]
  grind

/-- A planned request consists of pairs that are accepted, over columns that are not refused. -/
theorem exists_pairs_of_planOf (h : planOf problem request = .ok plan) :
    ∃ asked pairs, Request.pairs request = .ok asked ∧
      Plan.accept problem (itemsOf asked) = .ok pairs ∧
      (ColumnBounds.make problem true).check = .ok () ∧
      plan = Plan.ofPairs (ColumnBounds.make problem true) pairs := by
  unfold planOf at h
  cases hpairs : Request.pairs request with
  | error e => simp [hpairs] at h
  | ok asked =>
    simp only [hpairs] at h
    obtain ⟨pairs, haccept, hcheck, heq⟩ := Plan.exists_of_make h
    exact ⟨asked, pairs, rfl, haccept, hcheck, heq⟩

/-- A request of acceptable pairs over acceptable columns is planned. -/
theorem planOf_eq {pairs : List (Int × Int)} {found : List (Nat × Nat)} {bounds : ColumnBounds}
    (hpairs : Request.pairs request = .ok pairs)
    (haccept : Plan.accept problem (itemsOf pairs) = .ok found)
    (hbounds : ColumnBounds.make problem true = bounds) (hcheck : bounds.check = .ok ()) :
    planOf problem request = .ok (Plan.ofPairs bounds found) := by
  simp only [planOf, hpairs, Plan.make, haccept, hbounds, hcheck]

/-- The facts about a planned request that everything below relies on. -/
theorem regular_of_planOf (h : planOf problem request = .ok plan) :
    plan.pattern.Regular ∧ plan.bounds.Tiled ∧
      plan.pattern.numRows = plan.bounds.numCols.toNat := by
  obtain ⟨-, pairs, -, -, -, rfl⟩ := exists_pairs_of_planOf h
  have t := ColumnBounds.tiled_make problem true
  exact ⟨Plan.regular_ofPairs t pairs, t, Plan.numRows_ofPairs t pairs⟩

/-- The columns of a planned request are those of the free blocks. -/
theorem bounds_of_planOf (h : planOf problem request = .ok plan) :
    plan.bounds = ColumnBounds.make problem true := by
  obtain ⟨-, pairs, -, -, -, rfl⟩ := exists_pairs_of_planOf h
  rfl

/-- The columns of a planned request are not refused. -/
theorem check_of_planOf (h : planOf problem request = .ok plan) : plan.bounds.check = .ok () := by
  obtain ⟨-, pairs, -, -, hcheck, rfl⟩ := exists_pairs_of_planOf h
  exact hcheck

/-- A block with columns was given one for each of its tangent directions. -/
theorem widthAt_eq_tangentSize (h : planOf problem request = .ok plan) {i : Nat}
    (hi : 0 < plan.bounds.widthAt i) :
    (plan.bounds.widthAt i : Int) = (problem.blockAt i).tangentSize := by
  have hbounds := bounds_of_planOf h
  have hlt : i < problem.blocks.size := by
    have hlt := ColumnBounds.lt_size_of_widthAt_pos hi
    rwa [hbounds, ColumnBounds.size_ranges_make] at hlt
  rw [hbounds, ColumnBounds.widthAt_make problem true hlt, ColumnBounds.width] at hi ⊢
  split at hi
  · exact absurd hi (Nat.lt_irrefl 0)
  · rename_i hfree
    rw [if_neg hfree]
    exact Int.toNat_of_nonneg (by simp only [if_true] at hi; omega)

/-- Between two blocks the plan of a request stores every entry or none, as it asks for them or
not. -/
theorem stores_iff_requested (h : planOf problem request = .ok plan) {i j r k : Nat}
    (hr : r ∈ (plan.bounds.rangeAt i).columns) (hk : k ∈ (plan.bounds.rangeAt j).columns) :
    plan.pattern.Stores r k ↔ Requested request i j := by
  obtain ⟨asked, pairs, hpairs, haccept, -, rfl⟩ := exists_pairs_of_planOf h
  have hlt : ∀ {k l : Nat}, l ∈ ((ColumnBounds.make problem true).rangeAt k).columns →
      k < problem.blocks.size := by
    intro k l hl
    rw [← ColumnBounds.size_ranges_make problem true]
    exact ColumnBounds.lt_size_of_mem_columns hl
  rw [Plan.stores_ofPairs_iff (ColumnBounds.tiled_make problem true) hr hk,
    Plan.mem_of_accept haccept, asked_itemsOf, Requested, hpairs]
  simp only [Except.ok.injEq, exists_eq_left', hlt hr, hlt hk, and_self, and_true]

/-- Of the blocks with columns, the plan of a request covers those that it asks for. -/
theorem covers_iff_requested (h : planOf problem request = .ok plan) {i j : Nat}
    (hi : 0 < plan.bounds.widthAt i) (hj : 0 < plan.bounds.widthAt j) :
    plan.Covers i j ↔ Requested request i j :=
  stores_iff_requested h (ColumnBounds.first_mem_columns hi) (ColumnBounds.first_mem_columns hj)

/-- A request for two blocks with columns is a request for some entry. -/
theorem nonzeros_ne_zero_of_requested (h : planOf problem request = .ok plan) {i j : Nat}
    (hrequested : Requested request i j) (hi : 0 < plan.bounds.widthAt i)
    (hj : 0 < plan.bounds.widthAt j) : plan.pattern.nonzeros ≠ 0 :=
  (regular_of_planOf h).1.toWellFormed.nonzeros_ne_zero
    ((covers_iff_requested h hi hj).mpr hrequested)

variable [Zero α] [One α] [Add α] [Mul α] [Div α] [NatCast α]

/-- What a query reads from the plan of a request that holds the values of a function. -/
theorem blockIn_of_planOf (f : Nat → Nat → α) (hplan : planOf problem request = .ok plan)
    (coordinates : Coordinates) {q : Problem α} {a b : Atom} {i j : Nat}
    (ha : q.position a = .ok i) (hb : q.position b = .ok j) (hi : i < plan.bounds.ranges.size)
    (hj : j < plan.bounds.ranges.size) :
    (blockIn plan (Truncation.gather f plan.pattern) q coordinates a b).answer =
      answerAt f plan q coordinates i j := by
  obtain ⟨-, pairs, -, -, -, rfl⟩ := exists_pairs_of_planOf hplan
  exact blockIn_ofPairs f (ColumnBounds.tiled_make problem true) coordinates ha hb hi hj

/-- About two requested blocks with columns, a plan answers their entries. -/
theorem answerAt_of_requested (f : Nat → Nat → α) (hplan : planOf problem request = .ok plan)
    (q : Problem α) {i j : Nat} (hrequested : Requested request i j)
    (hi : 0 < plan.bounds.widthAt i) (hj : 0 < plan.bounds.widthAt j) :
    answerAt f plan q .tangent i j = .ok (some (blockOf f plan.bounds i j)) := by
  have hwidths : ¬ (plan.bounds.widthAt i = 0 ∨ plan.bounds.widthAt j = 0) := by omega
  rw [answerAt, if_neg hwidths, if_pos ((covers_iff_requested hplan hi hj).mpr hrequested)]
  rfl

/-- The block of two requested handles with columns is read from the entries at their columns. -/
theorem block_of_ready (f : Nat → Nat → α) (hplan : planOf problem request = .ok plan)
    {ready : Covariance α} (hcomputed : ready.computed = true)
    (hready : ready.estimate = .ready plan (Truncation.gather f plan.pattern)) {a b : Atom}
    {i j : Nat} (ha : problem.position a = .ok i) (hb : problem.position b = .ok j)
    (hrequested : Requested request i j) (hi : 0 < plan.bounds.widthAt i)
    (hj : 0 < plan.bounds.widthAt j) :
    ∃ B, (ready.block problem .tangent a b).answer = .ok (some B) ∧
      B.rows = plan.bounds.widthAt i ∧ B.cols = plan.bounds.widthAt j ∧
      ∀ u v, u < plan.bounds.widthAt i → v < plan.bounds.widthAt j →
        B.get u v = f ((plan.bounds.rangeAt i).first + u) ((plan.bounds.rangeAt j).first + v) := by
  refine ⟨blockOf f plan.bounds i j, ?_, rfl, rfl, fun u v hu hv => Dense.get_ofFn_of_lt _ hu hv⟩
  have hblock := blockIn_of_planOf f hplan .tangent ha hb (ColumnBounds.lt_size_of_widthAt_pos hi)
    (ColumnBounds.lt_size_of_widthAt_pos hj)
  rw [answerAt_of_requested f hplan problem hrequested hi hj] at hblock
  simp only [block, whenReady, hcomputed, hready, if_true]
  exact hblock

end Requests

/-! ## What decides a computation -/

/-- Only something that is found answers that it is there. -/
theorem eq_some_of_map_isSome {β : Type} {answer : Except Fault (Option β)}
    (h : answer.map Option.isSome = .ok true) : ∃ found, answer = .ok (some found) := by
  cases answer with
  | error e => cases h
  | ok found =>
    cases found with
    | none => cases h
    | some found => exact ⟨found, rfl⟩

section Computing

variable {α : Type} [Zero α] [One α] [Add α] [Sub α] [Mul α] [Div α] [NatCast α] [BEq α]
  [LE α] [DecidableLE α] [Elementary α] {engine : Engine α} {problem : Problem α}
  {request : List Item} {plan : Plan}

/-- A planned request that names two blocks with columns, and the Jacobian over its columns. -/
structure Prepared (engine : Engine α) (options : Options α) (problem : Problem α)
    (request : List Item) (plan : Plan) (J : Compressed α) : Prop where
  planned : planOf problem request = .ok plan
  free : ∃ i j, Requested request i j ∧ 0 < plan.bounds.widthAt i ∧ 0 < plan.bounds.widthAt j
  jacobian : (problem.jacobian engine.schedule plan.bounds options.applyLoss
    options.threads).answer = .ok J

/-- The pattern of a plan and that of a Jacobian over its columns go together. -/
theorem shapes_of_jacobian {J : Compressed α} {schedule : Schedule} {applyLoss : Bool}
    {threads : Int} (hplan : planOf problem request = .ok plan)
    (hJ : (problem.jacobian schedule plan.bounds applyLoss threads).answer = .ok J) :
    plan.pattern.Regular ∧ plan.pattern.numRows = J.pattern.numCols ∧ J.pattern.WellFormed ∧
      J.pattern.Ascending := by
  obtain ⟨r, t, hrows⟩ := regular_of_planOf hplan
  obtain ⟨hcols, w, a⟩ := Problem.pattern_jacobian t hJ
  exact ⟨r, by rw [hrows, hcols], w, a⟩

theorem Prepared.shapes {options : Options α} {J : Compressed α}
    (h : Prepared engine options problem request plan J) :
    plan.pattern.Regular ∧ plan.pattern.numRows = J.pattern.numCols ∧ J.pattern.WellFormed ∧
      J.pattern.Ascending :=
  shapes_of_jacobian h.planned h.jacobian

variable [Neg α] [LT α] [DecidableLT α] {c : Covariance α}

/-- A planned computation answers whether the plan was filled, and leaves the plan with what
filled it. -/
theorem compute_eq (h : planOf problem request = .ok plan) (engine : Engine α)
    (c : Covariance α) :
    (compute engine c problem request).answer =
        (fillPlan engine c.options problem plan).answer.map Option.isSome ∧
      (compute engine c problem request).state =
        { c with
          computed := true
          estimate := Estimate.ofFilled plan (fillPlan engine c.options problem plan).answer } := by
  unfold planOf at h
  unfold compute
  cases hpairs : Request.pairs request with
  | error e => simp [hpairs] at h
  | ok pairs =>
    simp only [hpairs, itemsOf] at h
    simp only [h]
    cases (fillPlan engine c.options problem plan).answer with
    | error e => exact ⟨rfl, rfl⟩
    | ok filled =>
      cases filled with
      | none => exact ⟨rfl, rfl⟩
      | some values => exact ⟨rfl, rfl⟩

/-- Where a request asks for no entry, nothing is computed, and the computation succeeds. -/
theorem compute_of_nonzeros_eq_zero (h : planOf problem request = .ok plan)
    (hnonzeros : plan.pattern.nonzeros = 0) (engine : Engine α) (c : Covariance α) :
    (compute engine c problem request).answer = .ok true ∧
      (compute engine c problem request).state.estimate = .ready plan #[] := by
  have hfilled : (fillPlan engine c.options problem plan).answer = .ok (some #[]) := by
    rw [fillPlan, if_pos hnonzeros]
  obtain ⟨hanswer, hstate⟩ := compute_eq h engine c
  rw [hfilled] at hanswer hstate
  exact ⟨hanswer, by rw [hstate]; rfl⟩

/-- Only a planned request is computed, and it is then there with values for its plan. -/
theorem exists_of_compute (h : (compute engine c problem request).answer = .ok true) :
    ∃ plan values, planOf problem request = .ok plan ∧
      (fillPlan engine c.options problem plan).answer = .ok (some values) ∧
      (compute engine c problem request).state =
        { c with computed := true, estimate := .ready plan values } := by
  cases hplan : planOf problem request with
  | error e =>
    -- a request that is refused is not answered
    exfalso
    unfold planOf at hplan
    unfold compute at h
    cases hpairs : Request.pairs request with
    | error e => simp [hpairs] at h
    | ok pairs =>
      simp only [hpairs, itemsOf] at hplan
      simp [hpairs, hplan] at h
  | ok plan =>
    obtain ⟨hanswer, hstate⟩ := compute_eq hplan engine c
    obtain ⟨values, hfilled⟩ := eq_some_of_map_isSome (hanswer.symm.trans h)
    rw [hfilled] at hstate
    exact ⟨plan, values, rfl, hfilled, hstate⟩

/-- A plan that stores something is filled from its Jacobian. -/
theorem answer_fillPlan_eq_bind (engine : Engine α) (options : Options α) (problem : Problem α)
    (hplan : plan.pattern.nonzeros ≠ 0) :
    (fillPlan engine options problem plan).answer =
      (problem.jacobian engine.schedule plan.bounds options.applyLoss
        options.threads).answer.bind fun J =>
          (estimateValues engine options J plan.pattern).answer := by
  simp only [fillPlan, if_neg hplan]
  cases (problem.jacobian engine.schedule plan.bounds options.applyLoss options.threads).answer with
  | error e => rfl
  | ok J => rw [Outcome.answer_after]; rfl

theorem answer_fillPlan {options : Options α} {J : Compressed α}
    (hplan : plan.pattern.nonzeros ≠ 0)
    (hJ : (problem.jacobian engine.schedule plan.bounds options.applyLoss
      options.threads).answer = .ok J) :
    (fillPlan engine options problem plan).answer =
      (estimateValues engine options J plan.pattern).answer := by
  rw [answer_fillPlan_eq_bind engine options problem hplan, hJ]
  rfl

/-- What fills a plan that stores something has a Jacobian. -/
theorem exists_jacobian_of_fillPlan {options : Options α} {values : Array α}
    (hplan : plan.pattern.nonzeros ≠ 0)
    (h : (fillPlan engine options problem plan).answer = .ok (some values)) :
    ∃ J, (problem.jacobian engine.schedule plan.bounds options.applyLoss
      options.threads).answer = .ok J := by
  rw [answer_fillPlan_eq_bind engine options problem hplan] at h
  obtain ⟨J, hJ, -⟩ := bind_eq_ok_iff.mp h
  exact ⟨J, hJ⟩

/-- A prepared computation is decided by the estimate of its Jacobian. -/
theorem Prepared.compute_eq {J : Compressed α}
    (h : Prepared engine c.options problem request plan J) :
    (compute engine c problem request).answer =
        (estimateValues engine c.options J plan.pattern).answer.map Option.isSome ∧
      (compute engine c problem request).state =
        { c with
          computed := true
          estimate :=
            Estimate.ofFilled plan (estimateValues engine c.options J plan.pattern).answer } := by
  obtain ⟨i, j, hrequested, hi, hj⟩ := h.free
  have hne := nonzeros_ne_zero_of_requested h.planned hrequested hi hj
  obtain ⟨hanswer, hstate⟩ := Covariance.compute_eq h.planned engine c
  rw [answer_fillPlan hne h.jacobian] at hanswer hstate
  exact ⟨hanswer, hstate⟩

end Computing

/-! ## What fills an estimate -/

section Averaging

variable {α : Type} [Zero α] [One α] [Add α] [Neg α] [Mul α] [Div α] [NatCast α] [BEq α]
  [LT α] [DecidableLT α] [LE α] [DecidableLE α] [Elementary α] {engine : Engine α}

/-- The values of an estimate are those of its algorithm, each averaged with its transposed
value. -/
theorem estimateValues_eq {options : Options α} {J : Compressed α} {p : Pattern}
    (r : p.Regular) :
    (estimateValues engine options J p).answer =
      if J.pattern.numRows = 0 ∨ J.pattern.numCols = 0 then .ok none
      else (values engine options J p).answer.map fun found =>
        found.map fun raw => average raw p.transposedOrder := by
  unfold estimateValues
  split
  · rfl
  · cases hfound : (values engine options J p).answer with
    | error e => simp [hfound, Except.map]
    | ok found =>
      cases found with
      | none => simp [hfound, Except.map]
      | some raw => simp [hfound, Except.map, r.transposePermutation_eq]

end Averaging

section Filling

variable {K : Type} [Field K] [LinearOrder K] [IsStrictOrderedRing K]

/-- Averaging leaves the values of a symmetric function as they are. -/
theorem average_gather_of_symm {f : Nat → Nat → K} {p : Pattern} (r : p.Regular)
    (h : ∀ i j, p.Stores i j → f i j = f j i) :
    average (Truncation.gather f p) p.transposedOrder = Truncation.gather f p := by
  rw [average_gather f r]
  refine Truncation.gather_congr fun i j hij => ?_
  rw [h i j hij, half_mul_add_self]

variable [Elementary K] {engine : Engine K} {options : Options K} {J : Compressed K}
  {p : Pattern}

/-- An estimate holds the entries of the symmetric matrix that its algorithm found. -/
theorem answer_estimateValues (r : p.Regular) (hrows : J.pattern.numRows ≠ 0)
    (hcols : J.pattern.numCols ≠ 0) {n : Nat} {M : Matrix (Fin n) (Fin n) K} (hM : M.IsSymm)
    (h : (values engine options J p).answer = .ok (some (Truncation.gather (entryAt M) p))) :
    (estimateValues engine options J p).answer =
      .ok (some (Truncation.gather (entryAt M) p)) := by
  have havoid : ¬ (J.pattern.numRows = 0 ∨ J.pattern.numCols = 0) := by
    rintro (hzero | hzero)
    · exact hrows hzero
    · exact hcols hzero
  rw [estimateValues_eq r, if_neg havoid, h]
  simp only [Except.map, Option.map_some,
    average_gather_of_symm r fun i j _ => entryAt_comm hM i j]

/-- **Factorisation.** With exact factorisations, an estimate by a library is either not there, or
`J'J` is invertible and the estimate holds the entries of its inverse. -/
theorem factor_cases (exact : engine.ExactWith options.library) (w : J.pattern.WellFormed)
    (a : J.pattern.Ascending) (r : p.Regular) (hp : p.numRows = J.pattern.numCols)
    (halgorithm : options.algorithm = .sparseQr) :
    (estimateValues engine options J p).answer = .ok none ∨
      (IsUnit J.normalMatrix ∧ (estimateValues engine options J p).answer =
        .ok (some (Truncation.gather (entryAt J.normalMatrix⁻¹) p))) := by
  have hvalues : values engine options J p = valuesByFactor engine options J p := by
    simp only [values, halgorithm]
  by_cases hempty : J.pattern.numRows = 0 ∨ J.pattern.numCols = 0
  · left
    rw [estimateValues_eq r, if_pos hempty]
  obtain ⟨hrows, hcols⟩ := not_or.mp hempty
  cases hfactor : factorNormal engine options.library J with
  | error line =>
    left
    rw [estimateValues_eq r, if_neg hempty, hvalues]
    simp only [valuesByFactor, hfactor]
    rfl
  | ok f =>
    have hexact : f.Exact J.normalMatrix := exact J w a f hfactor
    by_cases hpivots :
        Selective.wellConditioned options.minReciprocalCondition f.pivots = true
    · right
      have hne := Selective.ne_zero_of_wellConditioned hpivots
      have hsolves : Selective.SolvesUnits f.solve p.numRows (entryAt J.normalMatrix⁻¹) := by
        rw [hp]
        exact hexact.solvesUnits J.isSymm_normalMatrix hne
      have hinvert := Selective.invert_eq_gather hsolves (fun _ hi _ hj => r.lt_of_stores ⟨hi, hj⟩)
        engine.schedule options.threads
      have hsymm : (J.normalMatrix⁻¹).IsSymm := by
        rw [Matrix.IsSymm, Matrix.transpose_nonsing_inv, J.isSymm_normalMatrix.eq]
      refine ⟨hexact.isUnit_iff.mpr hne, answer_estimateValues r hrows hcols hsymm ?_⟩
      rw [hvalues]
      simp only [valuesByFactor, hfactor, if_pos hpivots, hinvert]
    · left
      rw [estimateValues_eq r, if_neg hempty, hvalues]
      simp only [valuesByFactor, hfactor, if_neg hpivots]
      rfl

/-- With exact factorisations, a computation by elimination that succeeds where something is stored
leaves the entries of the inverse of `J'J`. -/
theorem exists_inverse_of_compute {c : Covariance K} {problem : Problem K} {request : List Item}
    {plan : Plan} (exact : engine.FactorsExactly) (halgorithm : c.options.algorithm = .sparseQr)
    (hlibrary : c.options.library = .elimination) (hplan : planOf problem request = .ok plan)
    (hnonzeros : plan.pattern.nonzeros ≠ 0)
    (h : (compute engine c problem request).answer = .ok true) :
    ∃ J, (problem.jacobian engine.schedule plan.bounds c.options.applyLoss
        c.options.threads).answer = .ok J ∧ IsUnit J.normalMatrix ∧
      (compute engine c problem request).state =
        { c with
          computed := true
          estimate :=
            .ready plan (Truncation.gather (entryAt J.normalMatrix⁻¹) plan.pattern) } := by
  obtain ⟨planned, values, hplanned, hfilled, hstate⟩ := exists_of_compute h
  obtain rfl : planned = plan := Except.ok.inj (hplanned.symm.trans hplan)
  obtain ⟨J, hJ⟩ := exists_jacobian_of_fillPlan hnonzeros hfilled
  obtain ⟨r, hp, w, a⟩ := shapes_of_jacobian hplan hJ
  rw [answer_fillPlan hnonzeros hJ] at hfilled
  have exactWith : engine.ExactWith c.options.library := hlibrary ▸ exact.exactWith
  rcases factor_cases exactWith w a r hp halgorithm with hnone | ⟨hunit, hsome⟩
  · rw [hnone] at hfilled
    cases hfilled
  · rw [hsome] at hfilled
    cases hfilled
    exact ⟨J, hJ, hunit, hstate⟩

/-- **Singular values.** With an exact decomposition, an estimate by singular values is there
exactly if the directions get weights, and it holds the entries of their weighted sum. -/
theorem answer_svd (r : p.Regular) (hp : p.numRows = J.pattern.numCols)
    (halgorithm : options.algorithm = .denseSvd) (hrows : J.pattern.numRows ≠ 0)
    (hcols : J.pattern.numCols ≠ 0) {s : Singular K} (hsingular : engine.singular J.dense = some s)
    (d : s.Decomposes J.toMatrix) :
    (estimateValues engine options J p).answer =
      .ok ((Truncation.weights options s.values).map fun weights =>
        Truncation.gather (entryAt (s.weighted (min J.pattern.numRows J.pattern.numCols)
          J.pattern.numCols fun k => weights.getD k 0)) p) := by
  have hvalues : values engine options J p = valuesBySvd engine options J.dense p := by
    simp only [values, halgorithm]
  cases hweights : Truncation.weights options s.values with
  | none =>
    rw [estimateValues_eq r, if_neg (not_or.mpr ⟨hrows, hcols⟩), hvalues]
    simp [valuesBySvd, hsingular, hweights, Except.map]
  | some weights =>
    have hlength : weights.length = min J.pattern.numRows J.pattern.numCols := by
      rw [← d.length_values, Truncation.length_weights hweights]
    refine answer_estimateValues r hrows hcols (s.isSymm_weighted _ _ _) ?_
    rw [hvalues]
    simp only [valuesBySvd, hsingular, hweights]
    refine congrArg (fun found => Except.ok (some found)) (Truncation.gather_congr ?_)
    intro i j hij
    have hi : i < J.pattern.numCols := by
      rw [← hp]
      exact hij.1
    have hj : j < J.pattern.numCols := by
      rw [← hp]
      exact r.lt_of_stores hij
    rw [Truncation.inverse_eq_entryAt s weights hi hj, hlength]

/-- An estimate by singular values that is there holds the entries of the weighted sum of the
directions of a decomposition. -/
theorem svd_cases (exact : engine.DecomposesExactly) (r : p.Regular)
    (hp : p.numRows = J.pattern.numCols) (halgorithm : options.algorithm = .denseSvd)
    {found : Array K} (h : (estimateValues engine options J p).answer = .ok (some found)) :
    J.pattern.numRows ≠ 0 ∧ J.pattern.numCols ≠ 0 ∧
      ∃ s weights, engine.singular J.dense = some s ∧ s.Decomposes J.toMatrix ∧
        Truncation.weights options s.values = some weights ∧
        found = Truncation.gather (entryAt (s.weighted
          (min J.pattern.numRows J.pattern.numCols) J.pattern.numCols fun k =>
            weights.getD k 0)) p := by
  by_cases hempty : J.pattern.numRows = 0 ∨ J.pattern.numCols = 0
  · rw [estimateValues_eq r, if_pos hempty] at h
    cases h
  obtain ⟨hrows, hcols⟩ := not_or.mp hempty
  refine ⟨hrows, hcols, ?_⟩
  cases hsingular : engine.singular J.dense with
  | none =>
    rw [estimateValues_eq r, if_neg hempty] at h
    simp [values, halgorithm, valuesBySvd, hsingular, Except.map] at h
  | some s =>
    have hexact : s.Decomposes J.toMatrix := exact.decomposes hsingular
    rw [answer_svd r hp halgorithm hrows hcols hsingular hexact, Except.ok.injEq] at h
    obtain ⟨weights, hweights, hfound⟩ := Option.map_eq_some_iff.mp h
    exact ⟨s, weights, rfl, hexact, hweights, hfound.symm⟩

/-- Where nothing is dropped and the Jacobian is not wider than high, `J'J` is invertible and the
estimate by singular values holds the entries of its inverse. -/
theorem svd_eq_inverse (exact : engine.DecomposesExactly) (r : p.Regular)
    (hp : p.numRows = J.pattern.numCols) (halgorithm : options.algorithm = .denseSvd)
    (hrank : options.nullSpaceRank = 0)
    (hlimit : 0 < Elementary.sqrt options.minReciprocalCondition)
    (hle : J.pattern.numCols ≤ J.pattern.numRows) {found : Array K}
    (h : (estimateValues engine options J p).answer = .ok (some found)) :
    IsUnit J.normalMatrix ∧ found = Truncation.gather (entryAt J.normalMatrix⁻¹) p := by
  obtain ⟨-, -, s, weights, -, d, hweights, rfl⟩ := svd_cases exact r hp halgorithm h
  obtain ⟨hkept, -⟩ := Truncation.weights_spec (Int.le_of_eq hrank.symm) hlimit hweights
  have hlength : s.values.length - options.nullSpaceRank.toNat = J.pattern.numCols := by
    rw [d.length_values, hrank]
    omega
  rw [hlength] at hkept
  have hne : ∀ k, k < J.pattern.numCols → s.value k ≠ 0 := fun k hk => ne_of_gt (hkept k hk).1
  refine ⟨d.isUnit_gram hle hne, ?_⟩
  have hinverse : J.normalMatrix⁻¹ = s.weighted (min J.pattern.numRows J.pattern.numCols)
      J.pattern.numCols fun k => weights.getD k 0 := by
    refine (d.inv_gram hle hne).trans (s.weighted_congr fun k hk => ?_)
    exact (hkept k (by omega)).2.symm
  rw [hinverse]

end Filling

end Covariance

end LeastSquares
