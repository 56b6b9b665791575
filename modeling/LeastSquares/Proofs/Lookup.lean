/-
LeastSquares.Proofs.Lookup — a block is read from the entries that belong to it.

A query finds, in every row of the first block, the position where the columns of the second one
start, and reads as many values from there on as the second block has columns. In the rows of a
plan the columns of a partner stand next to each other with only smaller columns in front
(`rowColumns_split`), so the search stops where they start, finds them there or not at all, and
every position that is read lies in the row (`Locates`). What a query answers from the values of a
function is therefore decided by the function and by the blocks that the plan covers
(`blockIn_ofPairs`).
-/
import LeastSquares.Covariance.Query
import LeastSquares.Proofs.Footprint

namespace LeastSquares

namespace Plan

/-- The search of an ascending row stops at the column it looks for. -/
theorem findIdx_append {pre post : List Nat} {k : Nat} (h : ∀ x ∈ pre, x < k) :
    (pre ++ k :: post).findIdx (fun x => decide (k ≤ x)) = pre.length := by
  rw [List.findIdx_append]
  have hpre : pre.findIdx (fun x => decide (k ≤ x)) = pre.length := by
    refine List.findIdx_eq_length.mpr ?_
    intro x hx
    simpa using h x hx
  rw [hpre, if_neg (Nat.lt_irrefl _)]
  simp [List.findIdx_cons]

@[simp] theorem bounds_ofPairs (bounds : ColumnBounds) (pairs : List (Nat × Nat)) :
    (ofPairs bounds pairs).bounds = bounds := rfl

variable {bounds : ColumnBounds} {pairs : List (Nat × Nat)}

/-- The columns of a partner stand next to each other, behind smaller ones. -/
theorem rowColumns_split (t : bounds.Tiled) {partners : List Nat} {j : Nat}
    (h : partners.Pairwise (· < ·)) (hj : j ∈ partners) :
    ∃ pre post, rowColumns bounds partners = pre ++ ((bounds.rangeAt j).columns ++ post) ∧
      ∀ k ∈ pre, ∀ l ∈ (bounds.rangeAt j).columns, k < l := by
  obtain ⟨before, after, rfl⟩ := List.append_of_mem hj
  refine ⟨rowColumns bounds before, rowColumns bounds after, ?_, ?_⟩
  · simp [rowColumns]
  · intro k hk l hl
    obtain ⟨i, hi, hki⟩ := mem_rowColumns.mp hk
    exact t.lt_of_mem_columns ((List.pairwise_append.mp h).2.2 i hi j List.mem_cons_self) hki hl

/-- Every position of a row has the column that the row lists there. -/
theorem column_of_getElem? {p : Pattern} {r m k : Nat} (h : (p.rowColumns r)[m]? = some k) :
    p.start r + m ∈ p.positions r ∧ p.column (p.start r + m) = k := by
  obtain ⟨hm, heq⟩ := List.getElem?_eq_some_iff.mp h
  have hlen : m < p.rowLength r := by simpa [Pattern.rowColumns, Pattern.positions] using hm
  refine ⟨Pattern.mem_positions.mpr ⟨Nat.le_add_right _ _, by omega⟩, ?_⟩
  simpa [Pattern.rowColumns, Pattern.positions] using heq

/-- In a row of block `i` the columns of a partner `j` are found where they start. -/
theorem offsetInRow_ofPairs (t : bounds.Tiled) {i j r : Nat}
    (hpair : (i, j) ∈ pairs ∨ (j, i) ∈ pairs) (hr : r ∈ (bounds.rangeAt i).columns)
    (hj : 0 < bounds.widthAt j) :
    ∃ k, offsetInRow (ofPairs bounds pairs).pattern r (bounds.rangeAt j).first = some k ∧
      ∀ v, v < bounds.widthAt j →
        k + v ∈ (ofPairs bounds pairs).pattern.positions r ∧
        (ofPairs bounds pairs).pattern.column (k + v) = (bounds.rangeAt j).first + v := by
  have hi := ColumnBounds.lt_size_of_mem_columns hr
  have hi' := ColumnBounds.widthAt_pos_of_mem_columns hr
  have hmem : j ∈ (partners bounds pairs).getD i [] := by
    refine (mem_partners hi).mpr ?_
    rcases hpair with h | h
    · exact ⟨_, h, Nat.ne_of_gt hi', Nat.ne_of_gt hj, Or.inl rfl⟩
    · exact ⟨_, h, Nat.ne_of_gt hj, Nat.ne_of_gt hi', Or.inr rfl⟩
  obtain ⟨pre, post, hsplit, hpre⟩ := rowColumns_split t (pairwise_partners bounds pairs hi) hmem
  have hcolumns : (bounds.rangeAt j).columns =
      List.range' (bounds.rangeAt j).first (bounds.widthAt j) := rfl
  have hrow : (ofPairs bounds pairs).pattern.rowColumns r =
      pre ++ (List.range' (bounds.rangeAt j).first (bounds.widthAt j) ++ post) := by
    rw [rowColumns_ofPairs t hr, hsplit, hcolumns]
  have hget : ∀ v, v < bounds.widthAt j →
      ((ofPairs bounds pairs).pattern.rowColumns r)[pre.length + v]? =
        some ((bounds.rangeAt j).first + v) := by
    intro v hv
    rw [hrow, List.getElem?_append_right (Nat.le_add_right _ _), Nat.add_sub_cancel_left,
      List.getElem?_append_left (by simpa using hv), List.getElem?_range' hv, Nat.one_mul]
  have hfind : ((ofPairs bounds pairs).pattern.rowColumns r).findIdx
      (fun x => decide ((bounds.rangeAt j).first ≤ x)) = pre.length := by
    obtain ⟨w, hw⟩ : ∃ w, bounds.widthAt j = w + 1 := ⟨bounds.widthAt j - 1, by omega⟩
    rw [hrow, hw, List.range'_succ]
    refine findIdx_append ?_
    intro x hx
    apply hpre x hx
    rw [ColumnRange.mem_columns]
    exact ⟨Nat.le_refl _, Nat.lt_add_of_pos_right hj⟩
  refine ⟨(ofPairs bounds pairs).pattern.start r + pre.length, ?_, ?_⟩
  · unfold offsetInRow
    rw [hfind]
    exact if_pos (hget 0 hj)
  · intro v hv
    rw [Nat.add_assoc]
    exact column_of_getElem? (hget v hv)

/-- Does a plan hold the block of two positions? A plan holds all entries of a block or none, so
the first one decides. -/
def Covers (plan : Plan) (i j : Nat) : Prop :=
  plan.pattern.Stores (plan.bounds.rangeAt i).first (plan.bounds.rangeAt j).first

instance (plan : Plan) (i j : Nat) : Decidable (plan.Covers i j) :=
  inferInstanceAs (Decidable (plan.pattern.Stores _ _))

/-- Between two blocks a plan stores every entry or none, as they are a pair or not. -/
theorem stores_ofPairs_iff (t : bounds.Tiled) {i j r k : Nat} (hr : r ∈ (bounds.rangeAt i).columns)
    (hk : k ∈ (bounds.rangeAt j).columns) :
    (ofPairs bounds pairs).pattern.Stores r k ↔ (i, j) ∈ pairs ∨ (j, i) ∈ pairs := by
  refine (stores_ofPairs t).trans ⟨?_, fun h => ⟨i, j, h, hr, hk⟩⟩
  rintro ⟨i', j', h, hr', hk'⟩
  obtain rfl := t.eq_of_mem_columns hr hr'
  obtain rfl := t.eq_of_mem_columns hk hk'
  exact h

/-- The blocks that a plan holds are those of its pairs. -/
theorem covers_ofPairs (t : bounds.Tiled) {i j : Nat} (hi : 0 < bounds.widthAt i)
    (hj : 0 < bounds.widthAt j) :
    (ofPairs bounds pairs).Covers i j ↔ (i, j) ∈ pairs ∨ (j, i) ∈ pairs :=
  stores_ofPairs_iff t (ColumnBounds.first_mem_columns hi) (ColumnBounds.first_mem_columns hj)

/-- In a row of a block that is not paired with `j` the columns of `j` are not found. -/
theorem offsetInRow_eq_none (t : bounds.Tiled) {i j r : Nat}
    (hpair : ¬ ((i, j) ∈ pairs ∨ (j, i) ∈ pairs)) (hr : r ∈ (bounds.rangeAt i).columns)
    (hj : 0 < bounds.widthAt j) :
    offsetInRow (ofPairs bounds pairs).pattern r (bounds.rangeAt j).first = none := by
  unfold offsetInRow
  refine if_neg fun hget => hpair ?_
  have hrow : r < (ofPairs bounds pairs).pattern.numRows := by
    rw [numRows_ofPairs t]
    exact t.lt_numCols hr
  exact (stores_ofPairs_iff t hr (ColumnBounds.first_mem_columns hj)).mp
    ⟨hrow, List.mem_of_getElem? hget⟩

variable {α : Type} {q : Problem α} {a b : Atom} {i j : Nat}

/-- A handle names the columns that were given out to its block, whatever problem it is read in. -/
theorem range_of_position (h : q.position a = .ok i) (hi : i < bounds.ranges.size) :
    bounds.range a = .ok (bounds.rangeAt i) := by
  unfold Problem.position Problem.position? at h
  unfold ColumnBounds.range
  cases ha : a.handle? with
  | none => simp [ha] at h
  | some n =>
    by_cases hn : 0 ≤ n ∧ n < q.blocks.size
    · simp only [ha, if_pos hn, Except.ok.injEq] at h
      subst h
      exact if_pos (by omega)
    · simp [ha, hn] at h

theorem offsets_eq (ha : q.position a = .ok i) (hb : q.position b = .ok j)
    (hi : i < bounds.ranges.size) (hj : j < bounds.ranges.size) :
    (ofPairs bounds pairs).offsets a b = .ok ((bounds.rangeAt i).columns.mapM fun r =>
      offsetInRow (ofPairs bounds pairs).pattern r (bounds.rangeAt j).first) := by
  simp only [offsets, bounds_ofPairs, range_of_position ha hi, range_of_position hb hj]
  rfl

/-- Offsets that tell, for every row of block `i`, where the columns of block `j` start in it; the
other columns of `j` follow in the same row. -/
structure Locates (plan : Plan) (i j : Nat) (offsets : List Nat) : Prop where
  length_eq : offsets.length = plan.bounds.widthAt i
  row_lt : ∀ u, u < plan.bounds.widthAt i →
    (plan.bounds.rangeAt i).first + u < plan.pattern.numRows
  columns : ∀ u, u < plan.bounds.widthAt i → ∃ k, offsets[u]? = some k ∧
    ∀ v, v < plan.bounds.widthAt j →
      k + v ∈ plan.pattern.positions ((plan.bounds.rangeAt i).first + u) ∧
      plan.pattern.column (k + v) = (plan.bounds.rangeAt j).first + v

/-- For two blocks of a pair, every row has its offset. -/
theorem offsets_of_pair (t : bounds.Tiled) (ha : q.position a = .ok i)
    (hb : q.position b = .ok j) (hi : i < bounds.ranges.size) (hj : j < bounds.ranges.size)
    (hpair : (i, j) ∈ pairs ∨ (j, i) ∈ pairs) (hwidth : 0 < bounds.widthAt j) :
    ∃ offsets, (ofPairs bounds pairs).offsets a b = .ok (some offsets) ∧
      (ofPairs bounds pairs).Locates i j offsets := by
  have hcolumns : (bounds.rangeAt i).columns =
      List.range' (bounds.rangeAt i).first (bounds.widthAt i) := rfl
  let at_ (r : Nat) : Nat :=
    (offsetInRow (ofPairs bounds pairs).pattern r (bounds.rangeAt j).first).getD 0
  have hat : ∀ r ∈ (bounds.rangeAt i).columns,
      offsetInRow (ofPairs bounds pairs).pattern r (bounds.rangeAt j).first = some (at_ r) := by
    intro r hr
    obtain ⟨k, hk, -⟩ := offsetInRow_ofPairs t hpair hr hwidth
    simp only [at_, hk, Option.getD_some]
  refine ⟨(bounds.rangeAt i).columns.map at_, ?_, ?_, ?_, ?_⟩
  · rw [offsets_eq ha hb hi hj]
    refine congrArg Except.ok (mapM_eq_some_iff.mpr ?_)
    rw [List.map_map]
    exact List.map_congr_left hat
  · simp [hcolumns]
  · intro u hu
    rw [numRows_ofPairs t]
    exact t.lt_numCols (ColumnBounds.first_add_mem_columns hu)
  · intro u hu
    rw [bounds_ofPairs] at hu
    obtain ⟨k, hk, hread⟩ :=
      offsetInRow_ofPairs t hpair (ColumnBounds.first_add_mem_columns hu) hwidth
    refine ⟨k, ?_, hread⟩
    have hkat : at_ ((bounds.rangeAt i).first + u) = k := by simp only [at_, hk, Option.getD_some]
    rw [hcolumns, List.getElem?_map, List.getElem?_range' hu, Nat.one_mul, Option.map_some, hkat]

/-- For two blocks that are no pair, there are no offsets. -/
theorem offsets_of_not_pair (t : bounds.Tiled) (ha : q.position a = .ok i)
    (hb : q.position b = .ok j) (hi : i < bounds.ranges.size) (hj : j < bounds.ranges.size)
    (hpair : ¬ ((i, j) ∈ pairs ∨ (j, i) ∈ pairs)) (hwidth : 0 < bounds.widthAt i)
    (hwidth' : 0 < bounds.widthAt j) :
    (ofPairs bounds pairs).offsets a b = .ok none := by
  obtain ⟨w, hw⟩ : ∃ w, bounds.widthAt i = w + 1 := ⟨bounds.widthAt i - 1, by omega⟩
  have hcolumns : (bounds.rangeAt i).columns =
      (bounds.rangeAt i).first :: List.range' ((bounds.rangeAt i).first + 1) w := by
    rw [← List.range'_succ, ← hw]
    rfl
  rw [offsets_eq ha hb hi hj, hcolumns, List.mapM_cons,
    offsetInRow_eq_none t hpair (ColumnBounds.first_mem_columns hwidth) hwidth']
  rfl

end Plan

namespace Covariance

variable {α : Type}

/-- The block of two positions, read from a function of row and column. -/
def blockOf (f : Nat → Nat → α) (bounds : ColumnBounds) (i j : Nat) : Dense α :=
  Dense.ofFn (bounds.widthAt i) (bounds.widthAt j) fun u v =>
    f ((bounds.rangeAt i).first + u) ((bounds.rangeAt j).first + v)

/-- A block is read at its offsets. -/
theorem get_readBlock [Zero α] (values : Array α) {offsets : List Nat} {width u v k : Nat}
    (hu : offsets[u]? = some k) (hv : v < width) :
    (readBlock values offsets width).get u v = values.getD (k + v) 0 := by
  obtain ⟨hlen, _⟩ := List.getElem?_eq_some_iff.mp hu
  have htable : offsets.toArray.getD u 0 = k := by
    simp [Array.getD_eq_getD_getElem?, hu]
  simp only [readBlock]
  rw [Dense.get_ofFn_of_lt _ hlen hv, htable]

/-- Where offsets locate a block, the block of a function is read from the values of the
function. -/
theorem readBlock_gather [Zero α] (f : Nat → Nat → α) {plan : Plan} (w : plan.pattern.WellFormed)
    {i j : Nat} {offsets : List Nat} (located : plan.Locates i j offsets) :
    readBlock (Truncation.gather f plan.pattern) offsets (plan.bounds.widthAt j) =
      blockOf f plan.bounds i j := by
  refine Dense.ext_get located.length_eq rfl fun u v hu hv => ?_
  have hu : u < plan.bounds.widthAt i := by rw [← located.length_eq]; exact hu
  have hv : v < plan.bounds.widthAt j := hv
  obtain ⟨k, hk, hcolumn⟩ := located.columns u hu
  obtain ⟨hmem, heq⟩ := hcolumn v hv
  rw [get_readBlock _ hk hv, Truncation.getD_gather f w (located.row_lt u hu) hmem, heq, blockOf,
    Dense.get_ofFn_of_lt _ hu hv]

variable {bounds : ColumnBounds} {pairs : List (Nat × Nat)} {q : Problem α} {a b : Atom}
  {i j : Nat}

/-- A covariance is known to be zero where one of the blocks has no columns. -/
theorem isZero_eq (t : bounds.Tiled) (ha : q.position a = .ok i) (hb : q.position b = .ok j)
    (hi : i < bounds.ranges.size) (hj : j < bounds.ranges.size) :
    isZero bounds a b = .ok (decide (bounds.widthAt i = 0 ∨ bounds.widthAt j = 0)) := by
  have hempty : ∀ {c : Atom} {k : Nat}, q.position c = .ok k → k < bounds.ranges.size →
      bounds.isEmpty c = .ok (decide (bounds.widthAt k = 0)) := by
    intro c k hc hk
    have hsize : (bounds.rangeAt k).size = 0 ↔ bounds.widthAt k = 0 := by
      have hnonneg := t.size_nonneg k
      unfold ColumnBounds.widthAt ColumnRange.width
      omega
    rw [ColumnBounds.isEmpty, Plan.range_of_position hc hk]
    by_cases h : bounds.widthAt k = 0 <;> simp [Except.map, hsize, h]
  unfold isZero
  rw [hempty ha hi, hempty hb hj]
  by_cases h : bounds.widthAt i = 0 <;> simp [h, bind, Except.bind, pure, Except.pure]

theorem Coordinates.size_nonneg (coordinates : Coordinates) (b : ParameterBlock α) :
    0 ≤ coordinates.size b := by
  cases coordinates with
  | ambient => exact Int.natCast_nonneg _
  | tangent => exact b.tangentSize_nonneg

/-- Zeros have a row for each direction of the first block in the coordinates. -/
theorem Coordinates.rows_zeros [Zero α] (coordinates : Coordinates) (a b : ParameterBlock α) :
    ((coordinates.zeros a b).rows : Int) = coordinates.size a :=
  Int.toNat_of_nonneg (coordinates.size_nonneg a)

theorem Coordinates.cols_zeros [Zero α] (coordinates : Coordinates) (a b : ParameterBlock α) :
    ((coordinates.zeros a b).cols : Int) = coordinates.size b :=
  Int.toNat_of_nonneg (coordinates.size_nonneg b)

variable [Zero α] [One α] [Add α] [Mul α] [Div α] [NatCast α]

/-- A block in tangent coordinates as it is answered in some coordinates. -/
def Coordinates.move (coordinates : Coordinates) (a b : ParameterBlock α) (same : Bool)
    (block : Dense α) : Except Fault (Dense α) :=
  match coordinates with
  | .tangent => .ok block
  | .ambient => lift a b same block

/-- What is answered about the blocks at two positions, where a plan holds the values of a function:
zeros where one of them has no columns, the moved block of their entries where the plan covers them,
and nothing elsewhere. -/
def answerAt (f : Nat → Nat → α) (plan : Plan) (q : Problem α) (coordinates : Coordinates)
    (i j : Nat) : Except Fault (Option (Dense α)) :=
  if plan.bounds.widthAt i = 0 ∨ plan.bounds.widthAt j = 0 then
    .ok (some (coordinates.zeros (q.blockAt i) (q.blockAt j)))
  else if plan.Covers i j then
    (coordinates.move (q.blockAt i) (q.blockAt j) (i = j) (blockOf f plan.bounds i j)).map some
  else .ok none

/-- **Reading a block.** A query of two blocks that were there when the plan was made answers what
is answered about their positions. -/
theorem blockIn_ofPairs (f : Nat → Nat → α) (t : bounds.Tiled) (coordinates : Coordinates)
    (ha : q.position a = .ok i) (hb : q.position b = .ok j) (hi : i < bounds.ranges.size)
    (hj : j < bounds.ranges.size) :
    (blockIn (Plan.ofPairs bounds pairs)
        (Truncation.gather f (Plan.ofPairs bounds pairs).pattern) q coordinates a b).answer =
      answerAt f (Plan.ofPairs bounds pairs) q coordinates i j := by
  have hzero := isZero_eq t ha hb hi hj
  rw [answerAt, Plan.bounds_ofPairs]
  by_cases hempty : bounds.widthAt i = 0 ∨ bounds.widthAt j = 0
  · rw [decide_eq_true hempty] at hzero
    simp only [blockIn, ha, hb, Plan.bounds_ofPairs, hzero, reply, if_pos hempty]
  · rw [decide_eq_false hempty] at hzero
    obtain ⟨hwidth, hwidth'⟩ : 0 < bounds.widthAt i ∧ 0 < bounds.widthAt j := by omega
    rw [if_neg hempty]
    by_cases hpair : (i, j) ∈ pairs ∨ (j, i) ∈ pairs
    · obtain ⟨offsets, hoffsets, located⟩ := Plan.offsets_of_pair t ha hb hi hj hpair hwidth'
      have hblock : readBlock (Truncation.gather f (Plan.ofPairs bounds pairs).pattern) offsets
          (bounds.rangeAt j).width = blockOf f bounds i j :=
        readBlock_gather f (Plan.regular_ofPairs t pairs).toWellFormed located
      rw [if_pos ((Plan.covers_ofPairs t hwidth hwidth').mpr hpair)]
      simp only [blockIn, ha, hb, Plan.bounds_ofPairs, hzero, hoffsets, hblock]
      cases coordinates <;> rfl
    · have hoffsets := Plan.offsets_of_not_pair t ha hb hi hj hpair hwidth hwidth'
      rw [if_neg (mt (Plan.covers_ofPairs t hwidth hwidth').mp hpair)]
      simp only [blockIn, ha, hb, Plan.bounds_ofPairs, hzero, hoffsets, reply]

end Covariance

end LeastSquares
