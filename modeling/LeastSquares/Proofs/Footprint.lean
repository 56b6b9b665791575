/-
LeastSquares.Proofs.Footprint — which entries a plan stores.

A request asks for blocks, a plan stores entries. `Asked p items i j` says that some item of the
request names the blocks `i` and `j`, in either order, and `pattern_of_planned` is the whole
account of the plan that such a request gets: its pattern is well formed, its rows ascend, and the
entry `(r, c)` is stored exactly when `r` and `c` are columns of blocks that are asked for
together. So the pattern is symmetric, and two requests that ask for the same blocks get the same
pattern, in whatever order and orientation they name them.

The proof follows the making of the plan. Partners are collected pair by pair (`mem_partners`),
each once and in ascending order (`pairwise_ascending`); because the columns tile, ascending
partners give ascending columns (`pairwise_rowColumns`); and the rows of a block are equal copies
of one row, laid end to end (`rowColumns_ofPairs`). A block without columns is nobody's partner
and has no rows, so it is skipped without a trace.
-/
import Mathlib.Tactic
import LeastSquares.Plan
import LeastSquares.Proofs.Transposition
import LeastSquares.Proofs.Traversal

namespace LeastSquares

namespace Plan

/-! ## Partners -/

theorem pairwise_distinct {xs : List Nat} (h : xs.Pairwise (· ≤ ·)) :
    (distinct xs).Pairwise (· < ·) := by
  induction xs with
  | nil => exact List.Pairwise.nil
  | cons x xs ih =>
    obtain ⟨hx, hxs⟩ := List.pairwise_cons.mp h
    have ih := ih hxs
    have hmem : ∀ n ∈ distinct xs, x ≤ n := fun n hn => hx n ((mem_distinct xs).mp hn)
    rw [distinct]
    cases hd : distinct xs with
    | nil => simp
    | cons y ys =>
      rw [hd] at ih hmem
      obtain ⟨hy, _⟩ := List.pairwise_cons.mp ih
      by_cases hxy : x = y
      · simpa only [if_pos hxy] using ih
      · simp only [if_neg hxy]
        refine List.pairwise_cons.mpr ⟨?_, ih⟩
        intro n hn
        have hlt : x < y := Nat.lt_of_le_of_ne (hmem y List.mem_cons_self) hxy
        rcases List.mem_cons.mp hn with rfl | hn
        · exact hlt
        · exact Nat.lt_trans hlt (hy n hn)

theorem pairwise_ascending (xs : List Nat) : (ascending xs).Pairwise (· < ·) := by
  refine pairwise_distinct ?_
  have hsorted : (xs.mergeSort fun a b => decide (a ≤ b)).Pairwise
      fun a b => decide (a ≤ b) = true := by
    apply List.pairwise_mergeSort
    · intro a b c
      simp only [decide_eq_true_eq]
      exact Nat.le_trans
    · intro a b
      simp only [Bool.or_eq_true, decide_eq_true_eq]
      exact Nat.le_total a b
  exact hsorted.imp of_decide_eq_true

/-- Does a pair make the second block a partner of the first one? Only if both have columns. -/
def Links (bounds : ColumnBounds) (pair : Nat × Nat) (i j : Nat) : Prop :=
  bounds.widthAt pair.1 ≠ 0 ∧ bounds.widthAt pair.2 ≠ 0 ∧ (pair = (i, j) ∨ pair = (j, i))

theorem size_addPair (bounds : ColumnBounds) (partners : Array (List Nat)) (pair : Nat × Nat) :
    (addPair bounds partners pair).size = partners.size := by
  unfold addPair
  split <;> simp

theorem getD_modify (partners : Array (List Nat)) (a i : Nat) (f : List Nat → List Nat) :
    (partners.modify a f).getD i [] =
      if a = i ∧ i < partners.size then f (partners.getD i []) else partners.getD i [] := by
  simp only [Array.getD_eq_getD_getElem?, Array.getElem?_modify]
  rcases Nat.lt_or_ge i partners.size with hi | hi
  · by_cases ha : a = i <;> simp [ha, hi]
  · simp [Nat.not_lt.mpr hi]

theorem mem_addPair (bounds : ColumnBounds) {partners : Array (List Nat)} {pair : Nat × Nat}
    {i j : Nat} (hi : i < partners.size) :
    j ∈ (addPair bounds partners pair).getD i [] ↔
      j ∈ partners.getD i [] ∨ Links bounds pair i j := by
  obtain ⟨a, b⟩ := pair
  unfold addPair Links ColumnBounds.widthAt
  split
  · rename_i hempty
    constructor
    · exact Or.inl
    · rintro (h | ⟨ha, hb, _⟩)
      · exact h
      · rcases hempty with h | h
        · exact absurd h ha
        · exact absurd h hb
  · rename_i hwidths
    obtain ⟨ha, hb⟩ := not_or.mp hwidths
    rw [getD_modify, getD_modify]
    by_cases hai : a = i <;> by_cases hbi : b = i <;>
      simp [hai, hbi, hi, ha, hb] <;> grind

theorem mem_foldl_addPair (bounds : ColumnBounds) (pairs : List (Nat × Nat))
    {partners : Array (List Nat)} {i j : Nat} (hi : i < partners.size) :
    j ∈ (pairs.foldl (addPair bounds) partners).getD i [] ↔
      j ∈ partners.getD i [] ∨ ∃ pair ∈ pairs, Links bounds pair i j := by
  induction pairs generalizing partners with
  | nil => simp
  | cons pair rest ih =>
    rw [List.foldl_cons, ih (by rw [size_addPair]; exact hi), mem_addPair bounds hi]
    simp only [List.mem_cons, exists_eq_or_imp]
    exact or_assoc

theorem size_foldl_addPair (bounds : ColumnBounds) (pairs : List (Nat × Nat))
    (partners : Array (List Nat)) :
    (pairs.foldl (addPair bounds) partners).size = partners.size := by
  induction pairs generalizing partners with
  | nil => rfl
  | cons pair rest ih => rw [List.foldl_cons, ih, size_addPair]

theorem getD_partners (bounds : ColumnBounds) (pairs : List (Nat × Nat)) {i : Nat}
    (hi : i < bounds.ranges.size) :
    (partners bounds pairs).getD i [] = ascending
      ((pairs.foldl (addPair bounds) (Array.replicate bounds.ranges.size [])).getD i []) := by
  have hsize : i < (pairs.foldl (addPair bounds)
      (Array.replicate bounds.ranges.size [])).size := by
    rw [size_foldl_addPair, Array.size_replicate]
    exact hi
  simp [partners, Array.getD_eq_getD_getElem?, hsize]

/-- The partners of a block are those that some pair links with it. -/
theorem mem_partners {bounds : ColumnBounds} {pairs : List (Nat × Nat)} {i j : Nat}
    (hi : i < bounds.ranges.size) :
    j ∈ (partners bounds pairs).getD i [] ↔ ∃ pair ∈ pairs, Links bounds pair i j := by
  rw [getD_partners bounds pairs hi, mem_ascending,
    mem_foldl_addPair bounds pairs (by rw [Array.size_replicate]; exact hi)]
  simp [Array.getD_eq_getD_getElem?, hi]

theorem pairwise_partners (bounds : ColumnBounds) (pairs : List (Nat × Nat)) {i : Nat}
    (hi : i < bounds.ranges.size) :
    ((partners bounds pairs).getD i []).Pairwise (· < ·) := by
  rw [getD_partners bounds pairs hi]
  exact pairwise_ascending _

/-! ## Rows -/

/-- The columns of the partners, one partner after the other. -/
theorem mem_rowColumns {bounds : ColumnBounds} {partners : List Nat} {k : Nat} :
    k ∈ rowColumns bounds partners ↔ ∃ j ∈ partners, k ∈ (bounds.rangeAt j).columns := by
  simp [rowColumns]

/-- Ascending partners have ascending columns. -/
theorem pairwise_rowColumns {bounds : ColumnBounds} (t : bounds.Tiled) {partners : List Nat}
    (h : partners.Pairwise (· < ·)) : (rowColumns bounds partners).Pairwise (· < ·) := by
  unfold rowColumns
  apply List.pairwise_flatMap.mpr
  constructor
  · intro j _
    exact List.pairwise_lt_range' 1
  · exact h.imp fun hlt k hk l hl => t.lt_of_mem_columns hlt hk hl

variable {bounds : ColumnBounds} {pairs : List (Nat × Nat)}

/-- The stored columns of every row of a plan. -/
def rows (bounds : ColumnBounds) (pairs : List (Nat × Nat)) : List (List Nat) :=
  spread bounds.widthAt (fun i => rowColumns bounds ((partners bounds pairs).getD i []))
    bounds.ranges.size

theorem pattern_ofPairs (bounds : ColumnBounds) (pairs : List (Nat × Nat)) :
    (ofPairs bounds pairs).pattern = Pattern.ofRows bounds.numCols.toNat (rows bounds pairs) :=
  rfl

theorem numRows_ofPairs (t : bounds.Tiled) (pairs : List (Nat × Nat)) :
    (ofPairs bounds pairs).pattern.numRows = bounds.numCols.toNat := by
  rw [t.toNat_numCols]
  exact length_spread bounds.widthAt _ bounds.ranges.size

/-- The rows of a block store the columns of its partners. -/
theorem rowColumns_ofPairs (t : bounds.Tiled) {i r : Nat}
    (hr : r ∈ (bounds.rangeAt i).columns) :
    (ofPairs bounds pairs).pattern.rowColumns r =
      rowColumns bounds ((partners bounds pairs).getD i []) := by
  have hi := ColumnBounds.lt_size_of_mem_columns hr
  obtain ⟨hle, hlt⟩ := (t.mem_columns_iff hi).mp hr
  have hget : (rows bounds pairs)[r]? =
      some (rowColumns bounds ((partners bounds pairs).getD i [])) :=
    getElem?_spread bounds.widthAt _ hi hle hlt
  obtain ⟨hr, heq⟩ := List.getElem?_eq_some_iff.mp hget
  rw [pattern_ofPairs, Pattern.rowColumns_ofRows _ _ hr, heq]

/-- An entry is stored when some pair has its row in one block and its column in the other. -/
theorem stores_ofPairs (t : bounds.Tiled) {r c : Nat} :
    (ofPairs bounds pairs).pattern.Stores r c ↔
      ∃ i j, ((i, j) ∈ pairs ∨ (j, i) ∈ pairs) ∧ r ∈ (bounds.rangeAt i).columns ∧
        c ∈ (bounds.rangeAt j).columns := by
  unfold Pattern.Stores
  rw [numRows_ofPairs t]
  constructor
  · rintro ⟨hr, hc⟩
    obtain ⟨i, hi, hri⟩ := t.exists_mem_columns hr
    rw [rowColumns_ofPairs t hri] at hc
    obtain ⟨j, hj, hcj⟩ := mem_rowColumns.mp hc
    obtain ⟨pair, hpair, -, -, hij⟩ := (mem_partners hi).mp hj
    refine ⟨i, j, ?_, hri, hcj⟩
    rcases hij with rfl | rfl
    · exact Or.inl hpair
    · exact Or.inr hpair
  · rintro ⟨i, j, hpair, hri, hcj⟩
    have hi := ColumnBounds.widthAt_pos_of_mem_columns hri
    have hj := ColumnBounds.widthAt_pos_of_mem_columns hcj
    refine ⟨t.lt_numCols hri, ?_⟩
    rw [rowColumns_ofPairs t hri]
    refine mem_rowColumns.mpr ⟨j, ?_, hcj⟩
    refine (mem_partners (ColumnBounds.lt_size_of_mem_columns hri)).mpr ?_
    rcases hpair with h | h
    · exact ⟨_, h, Nat.ne_of_gt hi, Nat.ne_of_gt hj, Or.inl rfl⟩
    · exact ⟨_, h, Nat.ne_of_gt hj, Nat.ne_of_gt hi, Or.inr rfl⟩

/-- The pattern of a plan over tiled columns is regular. -/
theorem regular_ofPairs (t : bounds.Tiled) (pairs : List (Nat × Nat)) :
    (ofPairs bounds pairs).pattern.Regular where
  toWellFormed := by
    refine Pattern.wellFormed_ofRows ?_
    intro row hrow k hk
    obtain ⟨i, _, hmem⟩ := List.mem_flatMap.mp hrow
    rw [(List.mem_replicate.mp hmem).2] at hk
    obtain ⟨j, _, hkj⟩ := mem_rowColumns.mp hk
    exact t.lt_numCols hkj
  square := numRows_ofPairs t pairs
  ascending := by
    intro r hr
    rw [numRows_ofPairs t] at hr
    obtain ⟨i, hi, hri⟩ := t.exists_mem_columns hr
    rw [rowColumns_ofPairs t hri]
    exact pairwise_rowColumns t (pairwise_partners bounds pairs hi)
  mirrored := by
    intro r c h
    obtain ⟨i, j, hpair, hr, hc⟩ := (stores_ofPairs t).mp h
    exact (stores_ofPairs t).mpr ⟨j, i, hpair.symm, hc, hr⟩

/-- Pairs that link the same blocks have the same pattern. -/
theorem pattern_congr {pairs' : List (Nat × Nat)}
    (h : ∀ i j, ((i, j) ∈ pairs' ∨ (j, i) ∈ pairs') ↔ ((i, j) ∈ pairs ∨ (j, i) ∈ pairs)) :
    (ofPairs bounds pairs').pattern = (ofPairs bounds pairs).pattern := by
  have hlinks : ∀ {pairs : List (Nat × Nat)} {i j : Nat},
      (∃ pair ∈ pairs, Links bounds pair i j) ↔
        (bounds.widthAt i ≠ 0 ∧ bounds.widthAt j ≠ 0) ∧ ((i, j) ∈ pairs ∨ (j, i) ∈ pairs) := by
    intro pairs i j
    constructor
    · rintro ⟨pair, hpair, ha, hb, rfl | rfl⟩
      · exact ⟨⟨ha, hb⟩, Or.inl hpair⟩
      · exact ⟨⟨hb, ha⟩, Or.inr hpair⟩
    · rintro ⟨⟨ha, hb⟩, hpair | hpair⟩
      · exact ⟨_, hpair, ha, hb, Or.inl rfl⟩
      · exact ⟨_, hpair, hb, ha, Or.inr rfl⟩
  have hpartners : ∀ {i : Nat}, i < bounds.ranges.size →
      (partners bounds pairs').getD i [] = (partners bounds pairs).getD i [] := by
    intro i hi
    apply Pattern.eq_of_pairwise_lt (pairwise_partners bounds pairs' hi)
      (pairwise_partners bounds pairs hi)
    intro j
    rw [mem_partners hi, mem_partners hi, hlinks, hlinks, h]
  have hrows : rows bounds pairs' = rows bounds pairs :=
    spread_congr fun i hi => by rw [hpartners hi]
  rw [pattern_ofPairs, pattern_ofPairs, hrows]

/-! ## Requests -/

variable {α : Type} {p : Problem α} {items : List Item} {plan : Plan}

/-- Does some item of a request name the blocks at two positions, in either order? -/
def Asked (p : Problem α) (items : List Item) (i j : Nat) : Prop :=
  ∃ item ∈ items, resolve p item = .ok (i, j) ∨ resolve p item = .ok (j, i)

/-- The items of an accepted request are the pairs, one by one. -/
theorem map_resolve_of_accept {pairs : List (Nat × Nat)} (h : accept p items = .ok pairs) :
    items.map (resolve p) = pairs.map .ok := by
  unfold accept at h
  cases hm : items.mapM (resolve p) with
  | error e => simp [hm, bind, Except.bind] at h
  | ok found =>
    rw [hm] at h
    cases hd : Request.checkDistinct (found.map Request.unordered) with
    | error e => simp [hd, bind, Except.bind] at h
    | ok u =>
      simp only [hd, bind, Except.bind, pure, Except.pure, Except.ok.injEq] at h
      rw [← h]
      exact mapM_eq_ok_iff.mp hm

/-- The pairs of an accepted request are those that its items name. -/
theorem mem_of_accept {pairs : List (Nat × Nat)} (h : accept p items = .ok pairs) (i j : Nat) :
    ((i, j) ∈ pairs ∨ (j, i) ∈ pairs) ↔ Asked p items i j := by
  have hmap := map_resolve_of_accept h
  have hmem : ∀ pair, pair ∈ pairs ↔ ∃ item ∈ items, resolve p item = .ok pair := by
    intro pair
    rw [← List.mem_map (f := resolve p), hmap]
    simp
  unfold Asked
  rw [hmem, hmem]
  constructor
  · rintro (⟨item, hitem, h⟩ | ⟨item, hitem, h⟩)
    · exact ⟨item, hitem, Or.inl h⟩
    · exact ⟨item, hitem, Or.inr h⟩
  · rintro ⟨item, hitem, h | h⟩
    · exact Or.inl ⟨item, hitem, h⟩
    · exact Or.inr ⟨item, hitem, h⟩

/-- A plan is made of accepted pairs over columns that are not refused. -/
theorem exists_of_make (h : (make p items).answer = .ok plan) :
    ∃ pairs, accept p items = .ok pairs ∧ (ColumnBounds.make p true).check = .ok () ∧
      plan = ofPairs (ColumnBounds.make p true) pairs := by
  unfold make at h
  cases ha : accept p items with
  | error e => simp [ha] at h
  | ok pairs =>
    cases hc : (ColumnBounds.make p true).check with
    | error e => simp [ha, hc] at h
    | ok u =>
      simp only [ha, hc, Except.ok.injEq] at h
      exact ⟨pairs, rfl, rfl, h.symm⟩

/-- **The footprint of a plan.** The plan of an accepted request has a square, well-formed pattern
with ascending rows over the columns of the problem, and stores exactly the entries whose row and
column belong to blocks that are asked for together. It is symmetric, and any other request that
asks for the same blocks has the same pattern. -/
theorem pattern_of_planned (h : (make p items).answer = .ok plan) :
    plan.bounds = ColumnBounds.make p true ∧
    (plan.pattern.numRows : Int) = plan.bounds.numCols ∧
    (plan.pattern.numCols : Int) = plan.bounds.numCols ∧
    plan.pattern.WellFormed ∧
    plan.pattern.Ascending ∧
    (∀ r c, plan.pattern.Stores r c ↔
      ∃ i j, Asked p items i j ∧ r ∈ (plan.bounds.rangeAt i).columns ∧
        c ∈ (plan.bounds.rangeAt j).columns) ∧
    plan.pattern.Mirrored ∧
    (∀ items' plan', (make p items').answer = .ok plan' →
      (∀ i j, Asked p items' i j ↔ Asked p items i j) → plan'.pattern = plan.pattern) := by
  obtain ⟨pairs, hpairs, -, rfl⟩ := exists_of_make h
  have t := ColumnBounds.tiled_make p true
  have r := regular_ofPairs t pairs
  have hrows := numRows_ofPairs t pairs
  have hcols : ((ColumnBounds.make p true).numCols.toNat : Int) =
      (ColumnBounds.make p true).numCols := by
    rw [t.numCols_eq, Int.toNat_natCast]
  refine ⟨rfl, ?_, ?_, r.toWellFormed, r.ascending, ?_, r.mirrored, ?_⟩
  · rw [hrows]
    exact hcols
  · rw [← r.square, hrows]
    exact hcols
  · intro i j
    rw [stores_ofPairs t]
    simp only [mem_of_accept hpairs]
    exact Iff.rfl
  · intro items' plan' h' hasked
    obtain ⟨pairs', hpairs', -, rfl⟩ := exists_of_make h'
    refine pattern_congr ?_
    intro i j
    rw [mem_of_accept hpairs', mem_of_accept hpairs, hasked]

/-! ## A plan that skips blocks

Four blocks, of which the second is held and the last is used by nobody: the columns of the first
and the third are adjacent, and pairs with the second one leave no trace. -/

/-- Blocks of two, one, one and one parameters; only the first and the third have columns. -/
def staggered : Problem Int where
  blocks := #[{ values := #[5, 6] }, { values := #[7], held := true }, { values := #[8] },
    { values := #[9] }]
  residuals := #[⟨[2, 1, 0], [.integer 2, .integer 1, .integer 0],
    ⟨fun _ => .ok #[], fun _ => .ok [], none⟩⟩]

/-- The third block with the first, the second with the third, the first with itself. -/
def staggeredRequest : List Item :=
  [.list [.integer 2, .integer 0], .list [.integer 1, .integer 2],
    .list [.integer 0, .integer 0]]

/-- The columns of the four blocks. -/
def staggeredBounds : ColumnBounds := ⟨#[⟨0, 2⟩, ⟨2, 0⟩, ⟨2, 1⟩, ⟨3, 0⟩], 3, true⟩

theorem make_staggered : (make staggered staggeredRequest).answer =
    .ok (ofPairs staggeredBounds [(2, 0), (1, 2), (0, 0)]) := by
  have hpairs : accept staggered staggeredRequest = .ok [(2, 0), (1, 2), (0, 0)] := by cbv
  have hbounds : ColumnBounds.make staggered true = staggeredBounds := by cbv
  have hcheck : staggeredBounds.check = .ok () := by
    simp [ColumnBounds.check, staggeredBounds, Extent.check, Extent.bytes, Extent.maxBytes]
  simp only [make, hpairs, hbounds, hcheck]

/-- The row of the third block stores the columns of the first one, and not its own. -/
theorem stores_in_staggered :
    (make staggered staggeredRequest).answer =
        .ok (ofPairs staggeredBounds [(2, 0), (1, 2), (0, 0)]) ∧
      (ofPairs staggeredBounds [(2, 0), (1, 2), (0, 0)]).pattern.Stores 2 1 ∧
      ¬ (ofPairs staggeredBounds [(2, 0), (1, 2), (0, 0)]).pattern.Stores 2 2 := by
  obtain ⟨-, -, -, -, -, hstores, -, -⟩ := pattern_of_planned make_staggered
  have hcolumns : ∀ i, (staggeredBounds.rangeAt i).columns =
      if i = 0 then [0, 1] else if i = 2 then [2] else [] := by
    intro i
    match i with
    | 0 | 1 | 2 | 3 => cbv
    | i + 4 =>
      rw [ColumnBounds.rangeAt_of_size_le _ (Nat.le_add_left 4 i)]
      simp [ColumnRange.columns, ColumnRange.width]
  refine ⟨make_staggered, ?_, ?_⟩
  · refine (hstores 2 1).mpr
      ⟨2, 0, ⟨.list [.integer 2, .integer 0], List.mem_cons_self, ?_⟩, ?_, ?_⟩
    · exact Or.inl (by cbv)
    · show 2 ∈ (staggeredBounds.rangeAt 2).columns
      simp [hcolumns]
    · show 1 ∈ (staggeredBounds.rangeAt 0).columns
      simp [hcolumns]
  · intro h
    obtain ⟨i, j, ⟨item, hitem, hij⟩, hi, hj⟩ := (hstores 2 2).mp h
    have hi : i = 2 := by
      have hi : 2 ∈ (staggeredBounds.rangeAt i).columns := hi
      rw [hcolumns] at hi
      split at hi <;> simp_all
    have hj : j = 2 := by
      have hj : 2 ∈ (staggeredBounds.rangeAt j).columns := hj
      rw [hcolumns] at hj
      split at hj <;> simp_all
    subst hi hj
    have hresolved : staggeredRequest.map (resolve staggered) =
        [.ok (2, 0), .ok (1, 2), .ok (0, 0)] := by cbv
    have hmem : .ok (2, 2) ∈ staggeredRequest.map (resolve staggered) :=
      List.mem_map.mpr ⟨item, hitem, hij.elim id id⟩
    rw [hresolved] at hmem
    simp at hmem

end Plan

end LeastSquares
