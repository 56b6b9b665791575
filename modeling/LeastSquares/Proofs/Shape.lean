/-
LeastSquares.Proofs.Shape — which answers have the shape that their blocks have.

A query in the parameters' own coordinates mixes two times: the plan and its values are those of the
computation, while the manifolds and the sizes are those that the problem has when it is asked. An
answer has the shape of its two blocks exactly where both still have the frames that were planned
for them (`Fits`), unless there is nothing to be moved between frames at all (`Fitted`). For blocks
with Jacobians of the declared shape this is a matter of tangent sizes (`fits_iff_tangentSize`).

A joint matrix reads the same answers into places of the sizes of the blocks, and places stretch a
block of a single row or column. So where everything fits the matrix is answered, and where it is
answered, an answer stands unchanged at its place exactly if its pair fits (`standsAt_iff`).
-/
import LeastSquares.Proofs.Coordinates
import LeastSquares.Proofs.Symmetry

namespace LeastSquares

/-! ## Lawful blocks -/

namespace ParameterBlock

variable {α : Type} [Zero α] [One α] {b : ParameterBlock α}

/-- A block whose Jacobian is there, with a row for each parameter and a column for each tangent
direction that its manifold declares. -/
def Lawful (b : ParameterBlock α) : Prop :=
  ∃ P, b.plusJacobian = .ok P ∧ P.rows = b.ambientSize ∧ (P.cols : Int) = b.tangentSize

theorem lawful_of_none (h : b.manifold = none) : b.Lawful := by
  refine ⟨Dense.identity b.ambientSize, ?_, rfl, ?_⟩
  · rw [plusJacobian, h]
  · rw [tangentSize, h]
    rfl

variable [Add α] [Sub α]

/-- A block of free coordinates is lawful. -/
theorem lawful_of_ofSubset {m : Subset} (h : b.manifold = some (.ofSubset m)) : b.Lawful := by
  have hambient : m.size = (b.values.size : Int) := b.fits _ h
  have htangent : ((m.tangentSize.toNat : Nat) : Int) = m.tangentSize :=
    Int.toNat_of_nonneg (m.tangentSize_nonneg (by omega))
  refine ⟨m.plusJacobian, ?_, ?_, ?_⟩
  · simp only [plusJacobian, h]
    exact if_pos hambient
  · show m.size.toNat = b.values.size
    omega
  · simp only [tangentSize, h]
    exact htangent

end ParameterBlock

/-! ## Answers -/

namespace Covariance

/-- An answer that is nothing, or a matrix of a shape. -/
def IsShaped {α : Type} (answer : Except Fault (Option (Dense α))) (rows cols : Nat) : Prop :=
  answer = .ok none ∨ ∃ B, answer = .ok (some B) ∧ B.rows = rows ∧ B.cols = cols

variable {K : Type} [Field K]

/-- Has the block at a position a frame of as many rows as it has parameters, and of as many columns
as were planned for it? -/
def Fits (plan : Plan) (q : Problem K) (i : Nat) : Prop :=
  ∃ P, Coordinates.frame .ambient (q.blockAt i) (plan.bounds.widthAt i) = .ok P ∧
    P.rows = (q.blockAt i).ambientSize ∧ P.cols = plan.bounds.widthAt i

/-- Do two positions fit, if an answer about them goes by their frames at all? -/
def Fitted (plan : Plan) (q : Problem K) (i j : Nat) : Prop :=
  0 < plan.bounds.widthAt i → 0 < plan.bounds.widthAt j → plan.Covers i j →
    Fits plan q i ∧ Fits plan q j

variable {plan : Plan} {q : Problem K} {f : Nat → Nat → K} {i j : Nat}

/-- A block with a lawful Jacobian fits where it has as many tangent directions as were planned. -/
theorem fits_iff_tangentSize (lawful : (q.blockAt i).Lawful) :
    Fits plan q i ↔ (q.blockAt i).tangentSize = plan.bounds.widthAt i := by
  obtain ⟨P, hP, hrows, hcols⟩ := lawful
  unfold Fits Coordinates.frame
  unfold ParameterBlock.plusJacobian at hP
  unfold ParameterBlock.tangentSize at hcols ⊢
  cases hmanifold : (q.blockAt i).manifold with
  | none =>
    simp only [Except.ok.injEq, exists_eq_left']
    constructor
    · rintro ⟨hambient, -⟩
      exact congrArg Nat.cast hambient.symm
    · intro hambient
      exact ⟨(Int.ofNat.inj hambient).symm, rfl⟩
  | some m =>
    simp only [hmanifold] at hP hcols
    simp only [hP, Except.ok.injEq, exists_eq_left', hrows, true_and, ← hcols, Nat.cast_inj]

/-- **The shape of an answer** is that of its two blocks exactly where they fit. -/
theorem isShaped_answerAt_iff :
    IsShaped (answerAt f plan q .ambient i j) (q.blockAt i).ambientSize
      (q.blockAt j).ambientSize ↔ Fitted plan q i j := by
  unfold answerAt
  split
  · rename_i hwidths
    refine iff_of_true (Or.inr ⟨_, rfl, rfl, rfl⟩) fun hi hj => ?_
    omega
  · rename_i hwidths
    split
    · rename_i hcovered
      constructor
      · rintro (h | ⟨B, h, hrows, hcols⟩)
        · obtain ⟨B, -, hnone⟩ := map_eq_ok_iff.mp h
          cases hnone
        · obtain ⟨B, hB, hsome⟩ := map_eq_ok_iff.mp h
          cases hsome
          obtain ⟨P, Q, hP, hQ, hfit, hfit', rfl⟩ := move_eq_ok_iff.mp hB
          rw [rows_finish, Dense.rows_sandwich] at hrows
          rw [cols_finish, Dense.cols_sandwich] at hcols
          exact fun _ _ _ => ⟨⟨P, hP, hrows, hfit⟩, Q, hQ, hcols, hfit'⟩
      · intro h
        obtain ⟨⟨P, hP, hrows, hfit⟩, Q, hQ, hcols, hfit'⟩ := h (by omega) (by omega) hcovered
        have hmove : Coordinates.ambient.move (q.blockAt i) (q.blockAt j) (i = j)
            (blockOf f plan.bounds i j) = .ok (Coordinates.ambient.finish (i = j)
              (Dense.sandwich P (blockOf f plan.bounds i j) Q)) :=
          move_eq_ok_iff.mpr ⟨P, Q, hP, hQ, hfit, hfit', rfl⟩
        refine Or.inr ⟨_, by rw [hmove]; rfl, ?_, ?_⟩
        · rw [rows_finish, Dense.rows_sandwich, hrows]
        · rw [cols_finish, Dense.cols_sandwich, hcols]
    · rename_i hcovered
      exact iff_of_true (Or.inl rfl) fun _ _ h => absurd h hcovered

/-! ## Joint matrices -/

/-- A matrix with an array at the place of two members. -/
def StandsAt {α : Type} [Zero α] (sizes : List Nat) (M : Dense α) (i j : Nat) (B : Dense α) :
    Prop :=
  B.rows = sizeAt sizes i ∧ B.cols = sizeAt sizes j ∧
    ∀ u v, u < sizeAt sizes i → v < sizeAt sizes j →
      M.get (place sizes i u) (place sizes j v) = B.get u v

/-- A place of the size of a block is read from the block as it is. -/
theorem stretched_eq_get {B : Dense K} {u v : Nat} (hu : u < B.rows) (hv : v < B.cols) :
    stretched B u v = B.get u v := by
  rw [stretched, Stretch.index_of_lt hu, Stretch.index_of_lt hv]

variable {problem : Problem K} {request : List Item} {c : Covariance K} {engine : Engine K}
  {handles : List Atom} {positions : List Nat}

omit [Field K] in
theorem sizeAt_memberSizes {coordinates : Coordinates} {k : Nat} (hk : positions[i]? = some k) :
    sizeAt (memberSizes q coordinates positions) i = (coordinates.size (q.blockAt k)).toNat :=
  sizeAt_eq (by rw [memberSizes, List.getElem?_map, hk, Option.map_some])

/-- A joint matrix is answered where what is answered about its pairs has the sizes of their
blocks. -/
theorem exists_matrix_of_isShaped (f : Nat → Nat → K) (h : planOf problem request = .ok plan)
    {coordinates : Coordinates} (hpositions : handles.mapM q.position = .ok positions)
    (hknown : ∀ a ∈ handles, ∀ k, q.position a = .ok k → k < plan.bounds.ranges.size)
    (shaped : ∀ k ∈ positions, ∀ l ∈ positions, IsShaped (answerAt f plan q coordinates k l)
      (coordinates.size (q.blockAt k)).toNat (coordinates.size (q.blockAt l)).toNat) :
    ∃ found, ((c.holding plan (Truncation.gather f plan.pattern)).matrix engine q coordinates
      handles).answer = .ok found := by
  have hmember : ∀ {i : Nat} {x : Atom × Int},
      (handles.zip ((positions.map q.blockAt).map coordinates.size))[i]? = some x →
      ∃ k ∈ positions, q.position x.1 = .ok k ∧ k < plan.bounds.ranges.size ∧
        x.2 = coordinates.size (q.blockAt k) := by
    intro i x hx
    obtain ⟨ha, hsize⟩ := List.getElem?_zip_eq_some.mp hx
    obtain ⟨k, hk, hposition⟩ := getElem?_of_mapM_eq_ok hpositions ha
    have hlt := hknown _ (List.mem_of_getElem? ha) k hposition
    refine ⟨k, List.mem_of_getElem? hk, hposition, hlt, ?_⟩
    simpa [hk] using hsize.symm
  have hplaced : ∀ pair ∈ Request.allPairs
      (handles.zip ((positions.map q.blockAt).map coordinates.size)),
      ∃ found, placed plan (Truncation.gather f plan.pattern) q coordinates pair = .ok found := by
    rintro ⟨x, y⟩ hpair
    obtain ⟨i, j, -, hx, hy⟩ := Request.mem_allPairs.mp hpair
    obtain ⟨k, hk, hposition, hlt, hsize⟩ := hmember hx
    obtain ⟨l, hl, hposition', hlt', hsize'⟩ := hmember hy
    have hanswer := blockIn_of_planOf f h coordinates hposition hposition' hlt hlt'
    unfold placed
    rw [hanswer]
    rcases shaped k hk l hl with hnone | ⟨B, hB, hrows, hcols⟩
    · exact ⟨none, by rw [hnone]⟩
    · have hgoes : ∀ n : Int, goesInto n n.toNat = true := by
        intro n
        simp [goesInto, Stretch.fits]
      refine ⟨some B, ?_⟩
      rw [hB]
      simp only [hsize, hsize', hrows, hcols, hgoes, Bool.and_self, if_true]
  obtain ⟨blocks, hblocks⟩ := exists_mapM_eq_ok hplaced
  have hmatrix := answer_matrixIn engine.schedule c.options.threads plan
    (Truncation.gather f plan.pattern) q coordinates handles
  rw [mapM_block, hpositions] at hmatrix
  simp only [Except.map, placedAll, hblocks] at hmatrix
  exact ⟨_, hmatrix⟩

/-- A joint matrix is answered where all its pairs fit. -/
theorem exists_matrix_of_fitted (f : Nat → Nat → K) (h : planOf problem request = .ok plan)
    (hpositions : handles.mapM q.position = .ok positions)
    (hknown : ∀ a ∈ handles, ∀ k, q.position a = .ok k → k < plan.bounds.ranges.size)
    (fitted : ∀ k ∈ positions, ∀ l ∈ positions, Fitted plan q k l) :
    ∃ found, ((c.holding plan (Truncation.gather f plan.pattern)).matrix engine q .ambient
      handles).answer = .ok found :=
  exists_matrix_of_isShaped f h hpositions hknown
    fun k hk l hl => isShaped_answerAt_iff.mpr (fitted k hk l hl)

/-- What stands at a place of a joint matrix: the answer about its two members, if it has the shape
of the place. -/
theorem standsAt_iff_isShaped {sizes : List Nat} {block : Nat → Nat → Dense K} {M B : Dense K}
    (joined : Joined sizes block M)
    (hB : B = if i ≤ j then block i j else (block j i).transpose) :
    StandsAt sizes M i j B ↔ B.rows = sizeAt sizes i ∧ B.cols = sizeAt sizes j := by
  refine ⟨fun h => ⟨h.1, h.2.1⟩, fun ⟨hrows, hcols⟩ => ⟨hrows, hcols, fun u v hu hv => ?_⟩⟩
  rw [joined.get i j u v hu hv]
  rw [← hrows] at hu
  rw [← hcols] at hv
  by_cases hij : i ≤ j
  · rw [if_pos hij] at hB ⊢
    subst hB
    exact stretched_eq_get hu hv
  · rw [if_neg hij] at hB ⊢
    subst hB
    rw [Dense.get_transpose]
    exact stretched_eq_get hv hu

/-- An answered matrix is square, with a place for each row of its blocks, and what is answered about
two members stands at their place exactly if it has the size of the place. -/
theorem exists_standsAt_iff (hf : ∀ i j, f i j = f j i) (h : planOf problem request = .ok plan)
    {coordinates : Coordinates} (hpositions : handles.mapM q.position = .ok positions)
    (hknown : ∀ a ∈ handles, ∀ k, q.position a = .ok k → k < plan.bounds.ranges.size)
    {M : Dense K}
    (hM : ((c.holding plan (Truncation.gather f plan.pattern)).matrix engine q coordinates
      handles).answer = .ok (some M)) :
    M.rows = (rowsOf (memberSizes q coordinates positions)).length ∧
      M.cols = (rowsOf (memberSizes q coordinates positions)).length ∧
      ∀ i j k l, positions[i]? = some k → positions[j]? = some l →
        ∃ B, answerAt f plan q coordinates k l = .ok (some B) ∧
          (StandsAt (memberSizes q coordinates positions) M i j B ↔
            B.rows = (coordinates.size (q.blockAt k)).toNat ∧
              B.cols = (coordinates.size (q.blockAt l)).toNat) := by
  obtain ⟨positions', block, hpositions', joined, hblocks⟩ := joined_holding f h hknown hM
  rw [hpositions] at hpositions'
  cases hpositions'
  refine ⟨joined.rows, joined.cols, fun i j k l hk hl => ?_⟩
  have hanswer : answerAt f plan q coordinates k l =
      .ok (some (if i ≤ j then block i j else (block j i).transpose)) := by
    by_cases hij : i ≤ j
    · rw [if_pos hij]
      exact (hblocks i j k l hij hk hl).1
    · have hswapped := (hblocks j i l k (by omega) hl hk).1
      rw [if_neg hij, answerAt_swap hf (regular_of_planOf h).1.mirrored
        (framed_of_answerAt hswapped), hswapped]
      rfl
  refine ⟨_, hanswer, ?_⟩
  rw [standsAt_iff_isShaped joined rfl, sizeAt_memberSizes hk, sizeAt_memberSizes hl]

/-- **The places of a joint matrix.** An answered matrix is square, with a place for each parameter
of its blocks, and what is answered about two members stands at their place exactly if they fit. -/
theorem standsAt_iff (hf : ∀ i j, f i j = f j i) (h : planOf problem request = .ok plan)
    (hpositions : handles.mapM q.position = .ok positions)
    (hknown : ∀ a ∈ handles, ∀ k, q.position a = .ok k → k < plan.bounds.ranges.size)
    {M : Dense K}
    (hM : ((c.holding plan (Truncation.gather f plan.pattern)).matrix engine q .ambient
      handles).answer = .ok (some M)) :
    M.rows = totalSize (memberSizes q .ambient positions) ∧
      M.cols = totalSize (memberSizes q .ambient positions) ∧
      ∀ i j k l, positions[i]? = some k → positions[j]? = some l →
        ∃ B, answerAt f plan q .ambient k l = .ok (some B) ∧
          (StandsAt (memberSizes q .ambient positions) M i j B ↔ Fitted plan q k l) := by
  obtain ⟨hrows, hcols, hplaces⟩ := exists_standsAt_iff hf h hpositions hknown hM
  rw [length_rowsOf_eq_totalSize] at hrows hcols
  refine ⟨hrows, hcols, fun i j k l hk hl => ?_⟩
  obtain ⟨B, hB, hstands⟩ := hplaces i j k l hk hl
  refine ⟨B, hB, hstands.trans ?_⟩
  rw [← isShaped_answerAt_iff (f := f), hB]
  simp [IsShaped, Coordinates.size]

end Covariance

end LeastSquares
