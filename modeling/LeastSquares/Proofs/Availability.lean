/-
LeastSquares.Proofs.Availability — which blocks are there after a computation, and where they are
read.

A query looks for one column only: in every row of the first block it searches the first column of
the second one, and where it finds it, it reads on for as many values as the second block has
columns. That this is right rests on what a plan is. A request that names both blocks has put all
columns of the second into every row of the first, next to each other, so nothing that is read lies
outside the row (`exists_offsets`, `readFrom_gather`). Without such a request none of these columns
is in any of these rows, also where the row is there for other requests; and a block without columns
never reaches the search, where the block behind it would answer for it, because it has the same
first column.
-/
import LeastSquares.Proofs.Inversion
import LeastSquares.Proofs.Placement
import LeastSquares.Proofs.Symmetry

namespace LeastSquares

/-- The values of a function are stored at the entries of their pattern. -/
theorem Compressed.stored?_gather {α : Type} [Zero α] (f : Nat → Nat → α) {p : Pattern}
    (w : p.WellFormed) {i j : Nat} (h : p.Stores i j) :
    (Compressed.mk p (Truncation.gather f p)).stored? i j = some (f i j) := by
  rw [stored?, sparseRow_gather f w h.1, List.lookup_graph (f i) h.2]

namespace Covariance

variable {α : Type}

/-- A block that was read from the values of a plan at the offsets of its rows: every value stands
in the row that it belongs to, and is what is stored for its entry. -/
structure ReadFrom [Zero α] (plan : Plan) (values : Array α) (i j : Nat) (offsets : List Nat)
    (B : Dense α) : Prop where
  rows : B.rows = plan.bounds.widthAt i
  cols : B.cols = plan.bounds.widthAt j
  entries : ∀ u v, u < B.rows → v < B.cols → ∃ k, offsets[u]? = some k ∧
    k + v ∈ plan.pattern.positions ((plan.bounds.rangeAt i).first + u) ∧
    values[k + v]? = some (B.get u v) ∧
    (Compressed.mk plan.pattern values).stored? ((plan.bounds.rangeAt i).first + u)
      ((plan.bounds.rangeAt j).first + v) = some (B.get u v)

/-- A block that is located is read from there. -/
theorem readFrom_gather [Zero α] (f : Nat → Nat → α) {plan : Plan} (w : plan.pattern.WellFormed)
    {i j : Nat} {offsets : List Nat} (located : plan.Locates i j offsets) :
    ReadFrom plan (Truncation.gather f plan.pattern) i j offsets
      (readBlock (Truncation.gather f plan.pattern) offsets (plan.bounds.widthAt j)) where
  rows := located.length_eq
  cols := rfl
  entries := by
    intro u v hu hv
    have hu : u < plan.bounds.widthAt i := by rw [← located.length_eq]; exact hu
    have hv : v < plan.bounds.widthAt j := hv
    have hrow := located.row_lt u hu
    obtain ⟨k, hk, hcolumn⟩ := located.columns u hu
    obtain ⟨hmem, heq⟩ := hcolumn v hv
    have hstores : plan.pattern.Stores ((plan.bounds.rangeAt i).first + u)
        ((plan.bounds.rangeAt j).first + v) :=
      ⟨hrow, List.mem_map.mpr ⟨_, hmem, heq⟩⟩
    rw [readBlock_gather f w located, blockOf, Dense.get_ofFn_of_lt _ hu hv]
    refine ⟨k, hk, hmem, ?_, Compressed.stored?_gather f w hstores⟩
    rw [Truncation.getElem?_gather f w hrow hmem, heq]

section Requests

variable {problem : Problem α} {request : List Item} {plan : Plan} {a b : Atom} {i j : Nat}

/-- Two requested blocks with columns are located in the rows of the plan. -/
theorem exists_offsets (h : planOf problem request = .ok plan) (ha : problem.position a = .ok i)
    (hb : problem.position b = .ok j) (hi : 0 < plan.bounds.widthAt i)
    (hj : 0 < plan.bounds.widthAt j) (hrequested : Requested request i j) :
    ∃ offsets, plan.offsets a b = .ok (some offsets) ∧ plan.Locates i j offsets := by
  have hcovers := (covers_iff_requested h hi hj).mpr hrequested
  have hlt := lt_ranges_of_position h ha
  have hlt' := lt_ranges_of_position h hb
  obtain ⟨-, pairs, -, -, -, rfl⟩ := exists_pairs_of_planOf h
  have t := ColumnBounds.tiled_make problem true
  exact Plan.offsets_of_pair t ha hb hlt hlt' ((Plan.covers_ofPairs t hi hj).mp hcovers) hj

variable [Zero α] [One α] [Add α] [Mul α] [Div α] [NatCast α]

/-- Nothing is answered about two blocks with columns that a plan does not cover, and something, if
only a fault, about any others. -/
theorem answerAt_eq_none (f : Nat → Nat → α) (plan : Plan) (q : Problem α)
    (coordinates : Coordinates) (i j : Nat) :
    answerAt f plan q coordinates i j = .ok none ↔
      0 < plan.bounds.widthAt i ∧ 0 < plan.bounds.widthAt j ∧ ¬ plan.Covers i j := by
  unfold answerAt
  split
  · rename_i hempty
    exact iff_of_false (by simp) fun h => by omega
  · rename_i hwidths
    split
    · rename_i hcovers
      refine iff_of_false (fun h => ?_) fun h => h.2.2 hcovers
      obtain ⟨B, -, hB⟩ := map_eq_ok_iff.mp h
      cases hB
    · rename_i hcovers
      exact iff_of_true rfl ⟨by omega, by omega, hcovers⟩

end Requests

section Results

variable [Zero α] [One α] [Add α] [Sub α] [Neg α] [Mul α] [Div α] [NatCast α] [BEq α] [LT α]
  [DecidableLT α] [LE α] [DecidableLE α] [Elementary α] {engine : Engine α} {c : Covariance α}
  {problem : Problem α} {request : List Item}

/-- **What is there, and where.** After a computation that succeeds, nothing is answered about two
handles in tangent coordinates exactly if both blocks have columns and the request names them in
neither order. A block without columns is answered by zeros of the tangent sizes of the two blocks.
Otherwise the answer is read at the offsets of the rows of the first block: every value lies in the
row that it belongs to, and is what is stored in the row and column of its entry. -/
theorem block_available (h : (compute engine c problem request).answer = .ok true) :
    ∃ plan values, planOf problem request = .ok plan ∧
      plan.bounds = ColumnBounds.make problem true ∧
      (compute engine c problem request).state.estimate = .ready plan values ∧
      ∀ a b i j, problem.position a = .ok i → problem.position b = .ok j →
        let answer := ((compute engine c problem request).state.block problem .tangent a b).answer
        (answer = .ok none ↔ 0 < plan.bounds.widthAt i ∧ 0 < plan.bounds.widthAt j ∧
          ¬ Requested request i j) ∧
        (plan.bounds.widthAt i = 0 ∨ plan.bounds.widthAt j = 0 →
          ∃ Z, answer = .ok (some Z) ∧ (Z.rows : Int) = (problem.blockAt i).tangentSize ∧
            (Z.cols : Int) = (problem.blockAt j).tangentSize ∧ ∀ u v, Z.get u v = 0) ∧
        (0 < plan.bounds.widthAt i → 0 < plan.bounds.widthAt j → Requested request i j →
          ∃ offsets B, plan.offsets a b = .ok (some offsets) ∧ answer = .ok (some B) ∧
            B = readBlock values offsets (plan.bounds.widthAt j) ∧
            ReadFrom plan values i j offsets B) := by
  obtain ⟨plan, raw, hplan, hstate⟩ := exists_holding_of_compute h
  obtain ⟨r, -, -⟩ := regular_of_planOf hplan
  -- the averages are the values of a function of row and column
  rw [average_eq_gather raw r] at hstate
  generalize (fun i j => half * (valueAt raw plan.pattern i j + valueAt raw plan.pattern j i)) = f
    at hstate
  refine ⟨plan, Truncation.gather f plan.pattern, hplan, bounds_of_planOf hplan,
    by rw [hstate]; rfl, ?_⟩
  intro a b i j ha hb answer
  have hanswer : answer = answerAt f plan problem .tangent i j := by
    show ((compute engine c problem request).state.block problem .tangent a b).answer = _
    rw [hstate]
    exact answer_block_holding f hplan c .tangent ha hb (lt_ranges_of_position hplan ha)
      (lt_ranges_of_position hplan hb)
  rw [hanswer]
  refine ⟨?_, ?_, ?_⟩
  · rw [answerAt_eq_none]
    refine and_congr_right fun hi => and_congr_right fun hj => ?_
    rw [covers_iff_requested hplan hi hj]
  · intro hempty
    rw [answerAt, if_pos hempty]
    exact ⟨_, rfl, Coordinates.rows_zeros .tangent _ _, Coordinates.cols_zeros .tangent _ _,
      fun u v => Dense.get_zeros _ _ u v⟩
  · intro hi hj hrequested
    obtain ⟨offsets, hoffsets, located⟩ := exists_offsets hplan ha hb hi hj hrequested
    refine ⟨offsets, _, hoffsets, ?_, rfl, readFrom_gather f r.toWellFormed located⟩
    rw [answerAt_of_requested f hplan problem hrequested hi hj,
      readBlock_gather f r.toWellFormed located]

/-- Two blocks of which only the mixed one was asked for: it is read from the row of the first
block, and the block of the first with itself is not there. -/
theorem block_available_sheared :
    (compute Engine.exact (plain .sparseQr) sheared shearedRequest).answer = .ok true ∧
      ((compute Engine.exact (plain .sparseQr) sheared shearedRequest).state.block sheared
        .tangent (.integer 0) (.integer 0)).answer = .ok none ∧
      ∃ values offsets B,
        ((compute Engine.exact (plain .sparseQr) sheared shearedRequest).state.block sheared
          .tangent (.integer 0) (.integer 1)).answer = .ok (some B) ∧
        ReadFrom (Plan.ofPairs shearedBounds [(1, 0)]) values 0 1 offsets B := by
  obtain ⟨plan, values, hplan, -, -, hblocks⟩ := block_available answer_sheared
  rw [prepared_sheared.planned] at hplan
  cases hplan
  have hpairs : Request.pairs shearedRequest = .ok [(1, 0)] := by cbv
  obtain ⟨hnone, -, -⟩ := hblocks (.integer 0) (.integer 0) 0 0 (by cbv) (by cbv)
  obtain ⟨-, -, hread⟩ := hblocks (.integer 0) (.integer 1) 0 1 (by cbv) (by cbv)
  obtain ⟨offsets, B, -, hB, -, read⟩ := hread (by decide) (by decide)
    ⟨[(1, 0)], hpairs, Or.inr List.mem_cons_self⟩
  refine ⟨answer_sheared, hnone.mpr ⟨by decide, by decide, ?_⟩, values, offsets, B, hB, read⟩
  rintro ⟨pairs, hfound, hmem⟩
  rw [hpairs] at hfound
  cases hfound
  revert hmem
  decide

end Results

end Covariance

end LeastSquares
