/-
LeastSquares.Proofs.Composition — a joint matrix is made of what is answered about its members.

A joint matrix and a query of two blocks read the same values, but not in the same way. The matrix
asks for every two of its handles once, the first one not behind the second, in an order that
threads decide, and mirrors what it finds; a query is asked in either order. So the matrix is
missing where some query of its members finds nothing, also one below the diagonal
(`matrix_eq_none_iff`), and otherwise shows at the place of every two members what a query of them
is answered with (`StandsAt`), as long as the answers have the sizes of their blocks. After a
computation they always do in tangent coordinates, and in those of the parameters where the
manifolds have Jacobians of the declared shape (`Coordinates.Admits`). Every entry belongs to two
members, and to no others (`existsUnique_belongs`).
-/
import LeastSquares.Proofs.Reporting
import LeastSquares.Proofs.Shape

namespace LeastSquares.Covariance

/-! ## Entries and members -/

/-- The entry in row `r` and column `s` of a joint matrix belongs to two members. -/
structure Belongs (sizes : List Nat) (r s : Nat) (members : Nat × Nat) : Prop where
  fst_lt : members.1 < sizes.length
  snd_lt : members.2 < sizes.length
  row : offset (sizeAt sizes) members.1 ≤ r ∧ r < offset (sizeAt sizes) (members.1 + 1)
  col : offset (sizeAt sizes) members.2 ≤ s ∧ s < offset (sizeAt sizes) (members.2 + 1)

/-- Every entry of a joint matrix belongs to two members, and to no others. -/
theorem existsUnique_belongs {sizes : List Nat} {r s : Nat}
    (hr : r < offset (sizeAt sizes) sizes.length) (hs : s < offset (sizeAt sizes) sizes.length) :
    ∃! members, Belongs sizes r s members := by
  obtain ⟨i, hi, hri⟩ := exists_offset_le (sizeAt sizes) hr
  obtain ⟨j, hj, hsj⟩ := exists_offset_le (sizeAt sizes) hs
  rw [← offset_succ] at hri hsj
  refine ⟨(i, j), ⟨hi, hj, hri, hsj⟩, ?_⟩
  rintro ⟨i', j'⟩ ⟨-, -, hri', hsj'⟩
  rw [offset_succ] at hri hsj hri' hsj'
  rw [part_unique (sizeAt sizes) hri hri', part_unique (sizeAt sizes) hsj hsj']

/-! ## Sizes of answers -/

/-- May a block be asked about in some coordinates? In those of the parameters its manifold needs a
Jacobian of the declared shape. -/
def Coordinates.Admits {α : Type} [Zero α] [One α] (coordinates : Coordinates)
    (b : ParameterBlock α) : Prop :=
  coordinates = .ambient → b.Lawful

variable {K : Type} [Field K] {problem : Problem K} {request : List Item} {plan : Plan}
  {coordinates : Coordinates} {f : Nat → Nat → K} {i j : Nat}

/-- What is answered about two blocks has their sizes. -/
theorem isShaped_of_admits (f : Nat → Nat → K) (h : planOf problem request = .ok plan)
    (hi : coordinates.Admits (problem.blockAt i)) (hj : coordinates.Admits (problem.blockAt j)) :
    IsShaped (answerAt f plan problem coordinates i j)
      (coordinates.size (problem.blockAt i)).toNat
      (coordinates.size (problem.blockAt j)).toNat := by
  cases coordinates with
  | ambient =>
    refine isShaped_answerAt_iff.mpr fun hwidth hwidth' _ => ?_
    exact ⟨(fits_iff_tangentSize (hi rfl)).mpr (widthAt_eq_tangentSize h hwidth).symm,
      (fits_iff_tangentSize (hj rfl)).mpr (widthAt_eq_tangentSize h hwidth').symm⟩
  | tangent =>
    unfold answerAt
    split
    · exact Or.inr ⟨_, rfl, rfl, rfl⟩
    · rename_i hwidths
      split
      · have hsize : ∀ {k : Nat}, plan.bounds.widthAt k ≠ 0 →
            plan.bounds.widthAt k = (problem.blockAt k).tangentSize.toNat := fun hk => by
          have := widthAt_eq_tangentSize h (Nat.pos_of_ne_zero hk)
          omega
        refine Or.inr ⟨_, rfl, hsize ?_, hsize ?_⟩ <;> omega
      · exact Or.inl rfl

/-! ## Missing matrices -/

variable {handles : List Atom} {positions : List Nat} {c : Covariance K} {engine : Engine K}

/-- A query of two blocks finds nothing exactly if the query in exchange finds nothing. -/
theorem answerAt_swap_eq_none (hf : ∀ i j, f i j = f j i) (h : planOf problem request = .ok plan)
    (hnone : answerAt f plan problem coordinates i j = .ok none) :
    answerAt f plan problem coordinates j i = .ok none := by
  rw [answerAt_swap hf (regular_of_planOf h).1.mirrored (framed_of_answerAt hnone), hnone]
  rfl

/-- A joint matrix that is answered is missing where nothing is answered about two of its members,
in either order. -/
theorem matrix_eq_none_iff (hf : ∀ i j, f i j = f j i) (h : planOf problem request = .ok plan)
    (hpositions : handles.mapM problem.position = .ok positions) {found : Option (Dense K)}
    (hfound : ((c.holding plan (Truncation.gather f plan.pattern)).matrix engine problem
      coordinates handles).answer = .ok found) :
    found = none ↔ ∃ a ∈ handles, ∃ b ∈ handles,
      ((c.holding plan (Truncation.gather f plan.pattern)).block problem coordinates a b).answer =
        .ok none := by
  rw [matrixIn_eq_none_iff hfound]
  constructor
  · rintro ⟨⟨a, b⟩, hpair, hmissing⟩
    obtain ⟨i, j, -, ha, hb⟩ := Request.mem_allPairs.mp hpair
    exact ⟨a, List.mem_of_getElem? ha, b, List.mem_of_getElem? hb,
      Outcome.isMissing_iff.mp hmissing⟩
  · rintro ⟨a, ha, b, hb, hnone⟩
    obtain ⟨k, -, hak⟩ := exists_mem_of_mapM_eq_ok hpositions ha
    obtain ⟨l, -, hbl⟩ := exists_mem_of_mapM_eq_ok hpositions hb
    obtain ⟨i, hi⟩ := List.mem_iff_getElem?.mp ha
    obtain ⟨j, hj⟩ := List.mem_iff_getElem?.mp hb
    rcases Nat.le_total i j with hij | hji
    · exact ⟨(a, b), Request.mem_allPairs.mpr ⟨i, j, hij, hi, hj⟩,
        Outcome.isMissing_iff.mpr hnone⟩
    · refine ⟨(b, a), Request.mem_allPairs.mpr ⟨j, i, hji, hj, hi⟩,
        Outcome.isMissing_iff.mpr ?_⟩
      have hk := lt_ranges_of_position h hak
      have hl := lt_ranges_of_position h hbl
      rw [answer_block_holding f h c coordinates hak hbl hk hl] at hnone
      rw [blockIn_of_planOf f h coordinates hbl hak hl hk]
      exact answerAt_swap_eq_none hf h hnone

/-- A joint matrix is not missing where each two of its members were asked for. -/
theorem matrix_ne_none_of_requested (hf : ∀ i j, f i j = f j i)
    (h : planOf problem request = .ok plan)
    (hpositions : handles.mapM problem.position = .ok positions)
    (hrequested : ∀ a ∈ handles, ∀ b ∈ handles, ∀ i j, problem.position a = .ok i →
      problem.position b = .ok j → Requested request i j) :
    ((c.holding plan (Truncation.gather f plan.pattern)).matrix engine problem coordinates
      handles).answer ≠ .ok none := by
  intro hnone
  obtain ⟨a, ha, b, hb, hquery⟩ := (matrix_eq_none_iff hf h hpositions hnone).mp rfl
  obtain ⟨i, -, hi⟩ := exists_mem_of_mapM_eq_ok hpositions ha
  obtain ⟨j, -, hj⟩ := exists_mem_of_mapM_eq_ok hpositions hb
  rw [answer_block_holding f h c coordinates hi hj (lt_ranges_of_position h hi)
    (lt_ranges_of_position h hj), answerAt_eq_none] at hquery
  obtain ⟨hwidth, hwidth', hmissing⟩ := hquery
  exact hmissing ((covers_iff_requested h hwidth hwidth').mpr (hrequested a ha b hb i j hi hj))

/-- A joint matrix is answered where its members may be asked about. -/
theorem exists_matrix_of_admits (engine : Engine K) (c : Covariance K) (f : Nat → Nat → K)
    (h : planOf problem request = .ok plan)
    (hpositions : handles.mapM problem.position = .ok positions)
    (admits : ∀ k ∈ positions, coordinates.Admits (problem.blockAt k)) :
    ∃ found, ((c.holding plan (Truncation.gather f plan.pattern)).matrix engine problem coordinates
      handles).answer = .ok found :=
  exists_matrix_of_isShaped f h hpositions (fun _ _ _ hk => lt_ranges_of_position h hk)
    fun k hk l hl => isShaped_of_admits f h (admits k hk) (admits l hl)

/-! ## Matrices of blocks -/

section Results

variable [LinearOrder K] [Elementary K]

/-- **A joint matrix is made of its blocks.** After a computation that succeeds, and for any handles
of blocks that may be asked about, a joint matrix is missing exactly if a query of two of its
members, in either order, finds nothing. Otherwise it is a square matrix with a row for each
parameter, or tangent direction, of its members; at the place of every two members stands what a
query of them is answered with; and every entry belongs to two members, and to no others. All of
this holds on any number of threads. -/
theorem matrix_of_blocks (h : (compute engine c problem request).answer = .ok true)
    (hpositions : handles.mapM problem.position = .ok positions)
    (admits : ∀ k ∈ positions, coordinates.Admits (problem.blockAt k)) (engine' : Engine K) :
    let held := (compute engine c problem request).state
    let joint := (held.matrix engine' problem coordinates handles).answer
    let query := fun a b => (held.block problem coordinates a b).answer
    let sizes := memberSizes problem coordinates positions
    (joint = .ok none ↔ ∃ a ∈ handles, ∃ b ∈ handles, query a b = .ok none) ∧
      (joint ≠ .ok none → ∃ M, joint = .ok (some M) ∧
        M.rows = offset (sizeAt sizes) handles.length ∧
        M.cols = offset (sizeAt sizes) handles.length ∧
        (∀ i j a b, handles[i]? = some a → handles[j]? = some b →
          ∃ B, query a b = .ok (some B) ∧ StandsAt sizes M i j B) ∧
        ∀ r s, r < M.rows → s < M.cols → ∃! members, Belongs sizes r s members) := by
  intro held joint query sizes
  obtain ⟨plan, f, hplan, hf, hstate⟩ := exists_symmetric_of_compute h
  have hheld : held = c.holding plan (Truncation.gather f plan.pattern) := hstate
  have hknown : ∀ a ∈ handles, ∀ k, problem.position a = .ok k → k < plan.bounds.ranges.size :=
    fun _ _ _ hk => lt_ranges_of_position hplan hk
  obtain ⟨found, hfound⟩ := exists_matrix_of_admits engine' c f hplan hpositions admits
  rw [← hheld] at hfound
  have hjoint : joint = .ok found := hfound
  have hnone : found = none ↔ ∃ a ∈ handles, ∃ b ∈ handles, query a b = .ok none := by
    rw [hheld] at hfound
    rw [matrix_eq_none_iff hf hplan hpositions hfound, ← hheld]
  rw [hjoint, Except.ok.injEq]
  refine ⟨hnone, fun hsome => ?_⟩
  cases found with
  | none => exact absurd rfl hsome
  | some M =>
    rw [hheld] at hfound
    obtain ⟨hrows, hcols, hplaces⟩ := exists_standsAt_iff hf hplan hpositions hknown hfound
    have hlength : sizes.length = handles.length := by
      rw [← length_of_mapM_eq_ok hpositions]
      exact List.length_map _
    rw [length_rowsOf, hlength] at hrows hcols
    refine ⟨M, rfl, hrows, hcols, fun i j a b ha hb => ?_, fun r s hr hs => ?_⟩
    · obtain ⟨k, hk, hak⟩ := getElem?_of_mapM_eq_ok hpositions ha
      obtain ⟨l, hl, hbl⟩ := getElem?_of_mapM_eq_ok hpositions hb
      obtain ⟨B, hB, hstands⟩ := hplaces i j k l hk hl
      have hquery : query a b = .ok (some B) := by
        show (held.block problem coordinates a b).answer = _
        rw [hheld, answer_block_holding f hplan c coordinates hak hbl
          (lt_ranges_of_position hplan hak) (lt_ranges_of_position hplan hbl), hB]
      refine ⟨B, hquery, hstands.mpr ?_⟩
      have hshaped := isShaped_of_admits f hplan (admits k (List.mem_of_getElem? hk))
        (admits l (List.mem_of_getElem? hl))
      rw [hB] at hshaped
      simpa [IsShaped] using hshaped
    · rw [hrows, ← hlength] at hr
      rw [hcols, ← hlength] at hs
      exact existsUnique_belongs hr hs

/-- A block of two parameters, asked for twice: the matrix has four rows, and what is answered about
the block stands below the diagonal too. -/
theorem matrix_of_blocks_square :
    (compute Engine.exact (plain .sparseQr) (oneBlock 2 #[2, 0, 0, 1]) itself).answer = .ok true ∧
      ∃ M B, ((compute Engine.exact (plain .sparseQr) (oneBlock 2 #[2, 0, 0, 1])
          itself).state.matrix Engine.exact (oneBlock 2 #[2, 0, 0, 1]) .ambient
          [.integer 0, .integer 0]).answer = .ok (some M) ∧
        ((compute Engine.exact (plain .sparseQr) (oneBlock 2 #[2, 0, 0, 1]) itself).state.block
          (oneBlock 2 #[2, 0, 0, 1]) .ambient (.integer 0) (.integer 0)).answer = .ok (some B) ∧
        M.rows = 4 ∧ StandsAt [2, 2] M 1 0 B := by
  have hanswer := answer_square .sparseQr
  have hpositions : [Atom.integer 0, .integer 0].mapM (oneBlock 2 #[2, 0, 0, 1]).position =
      .ok [0, 0] := by cbv
  have hlawful : ((oneBlock 2 #[2, 0, 0, 1]).blockAt 0).Lawful :=
    ParameterBlock.lawful_of_none rfl
  have admits : ∀ k ∈ [0, 0],
      Coordinates.ambient.Admits ((oneBlock 2 #[2, 0, 0, 1]).blockAt k) := by
    simpa [Coordinates.Admits] using hlawful
  obtain ⟨hmissing, hmatrix⟩ := matrix_of_blocks hanswer hpositions admits Engine.exact
  have hthere : ((compute Engine.exact (plain .sparseQr) (oneBlock 2 #[2, 0, 0, 1])
      itself).state.block (oneBlock 2 #[2, 0, 0, 1]) .ambient (.integer 0) (.integer 0)).answer ≠
        .ok none := by
    obtain ⟨plan, f, hplan, -, hstate⟩ := exists_symmetric_of_compute hanswer
    have hposition : (oneBlock 2 #[2, 0, 0, 1]).position (.integer 0) = .ok 0 := by cbv
    have hlt := lt_ranges_of_position hplan hposition
    rw [hstate, answer_block_holding f hplan _ .ambient hposition hposition hlt hlt, ne_eq,
      answerAt_eq_none]
    obtain ⟨-, t, -⟩ := regular_of_planOf hplan
    rw [planOf_oneBlock] at hplan
    cases hplan
    rintro ⟨hwidth, -, hmissing⟩
    exact hmissing ((Plan.covers_ofPairs t hwidth hwidth).mpr (Or.inl List.mem_cons_self))
  obtain ⟨M, hM, hrows, -, hplaces, -⟩ := hmatrix (by simpa [hmissing] using hthere)
  obtain ⟨B, hB, hstands⟩ := hplaces 1 0 _ _ rfl rfl
  exact ⟨hanswer, M, B, hM, hB, hrows, hstands⟩

end Results

end LeastSquares.Covariance
