/-
LeastSquares.Proofs.Assembly — what is known of every assembled Jacobian.

A Jacobian is put together from pieces, one for each parameter block of each residual block, and
compressed. Compressing sorts the columns of a row while it adds values up, so every row of the
result ascends (`ascending_compress`); and a piece only goes where the columns of its block are
(`col_lt_of_stack`). So whatever the residual blocks return, a Jacobian that is returned has a
well-formed pattern with ascending rows over the columns that were asked for: `pattern_jacobian`.
-/
import LeastSquares.Problem.Jacobian
import LeastSquares.Proofs.Layout

namespace LeastSquares

namespace Triplets

variable {α : Type} [Add α]

/-! ## Compressing sorts -/

theorem fst_mem_of_mem_insert {j : Nat} {v : α} {row : List (Nat × α)} {p : Nat × α}
    (h : p ∈ insert j v row) : p.1 = j ∨ ∃ q ∈ row, q.1 = p.1 := by
  induction row with
  | nil => exact Or.inl (congrArg Prod.fst (List.mem_singleton.mp h))
  | cons q row ih =>
    obtain ⟨k, w⟩ := q
    rw [insert] at h
    split at h
    · rcases List.mem_cons.mp h with rfl | h
      · exact Or.inl rfl
      · exact Or.inr ⟨p, h, rfl⟩
    · split at h
      · rcases List.mem_cons.mp h with rfl | h
        · exact Or.inr ⟨(k, w), List.mem_cons_self, rfl⟩
        · exact Or.inr ⟨p, List.mem_cons_of_mem _ h, rfl⟩
      · rcases List.mem_cons.mp h with rfl | h
        · exact Or.inr ⟨(k, w), List.mem_cons_self, rfl⟩
        · rcases ih h with heq | ⟨q, hq, heq⟩
          · exact Or.inl heq
          · exact Or.inr ⟨q, List.mem_cons_of_mem _ hq, heq⟩

/-- An ascending row stays ascending when a value is put into it. -/
theorem pairwise_insert (j : Nat) (v : α) {row : List (Nat × α)}
    (h : row.Pairwise fun a b => a.1 < b.1) :
    (insert j v row).Pairwise fun a b => a.1 < b.1 := by
  induction row with
  | nil => exact List.pairwise_singleton _ _
  | cons q row ih =>
    obtain ⟨k, w⟩ := q
    obtain ⟨hk, hrow⟩ := List.pairwise_cons.mp h
    rw [insert]
    split
    · rename_i hjk
      refine List.pairwise_cons.mpr ⟨?_, h⟩
      intro p hp
      rcases List.mem_cons.mp hp with rfl | hp
      · exact hjk
      · exact Nat.lt_trans hjk (hk p hp)
    · split
      · exact List.pairwise_cons.mpr ⟨hk, hrow⟩
      · refine List.pairwise_cons.mpr ⟨?_, ih hrow⟩
        intro p hp
        rcases fst_mem_of_mem_insert hp with heq | ⟨q, hq, heq⟩
        · show k < p.1
          omega
        · rw [← heq]
          exact hk q hq

/-- The columns of a row are those of its entries. -/
theorem col_mem_of_mem_row {t : Triplets α} {i : Nat} {p : Nat × α} (h : p ∈ t.row i) :
    ∃ e ∈ t.entries, e.col = p.1 := by
  have hfold : ∀ (entries : List (Triplet α)) (row : List (Nat × α)),
      p ∈ entries.foldl (fun row e => insert e.col e.value row) row →
        (∃ q ∈ row, q.1 = p.1) ∨ ∃ e ∈ entries, e.col = p.1 := by
    intro entries
    induction entries with
    | nil =>
      intro row h
      exact Or.inl ⟨p, h, rfl⟩
    | cons e entries ih =>
      intro row h
      rcases ih _ h with ⟨q, hq, heq⟩ | ⟨e', he', heq⟩
      · rcases fst_mem_of_mem_insert hq with hcol | ⟨q', hq', heq'⟩
        · exact Or.inr ⟨e, List.mem_cons_self, by rw [← heq, hcol]⟩
        · exact Or.inl ⟨q', hq', by rw [heq', heq]⟩
      · exact Or.inr ⟨e', List.mem_cons_of_mem _ he', heq⟩
  rcases hfold _ _ h with ⟨q, hq, _⟩ | ⟨e, he, heq⟩
  · cases hq
  · exact ⟨e, (List.mem_filter.mp he).1, heq⟩

theorem pairwise_row (t : Triplets α) (i : Nat) : (t.row i).Pairwise fun a b => a.1 < b.1 := by
  have hfold : ∀ (entries : List (Triplet α)) (row : List (Nat × α)),
      row.Pairwise (fun a b => a.1 < b.1) →
        (entries.foldl (fun row e => insert e.col e.value row) row).Pairwise
          fun a b => a.1 < b.1 := by
    intro entries
    induction entries with
    | nil =>
      intro row h
      exact h
    | cons e entries ih =>
      intro row h
      exact ih _ (pairwise_insert e.col e.value h)
  exact hfold _ _ List.Pairwise.nil

theorem pattern_compress (t : Triplets α) :
    t.compress.pattern =
      Pattern.ofRows t.numCols ((List.range t.numRows).map fun i => (t.row i).map Prod.fst) := by
  simp only [compress, toList_rowTable, List.map_map]
  rfl

theorem rowColumns_compress (t : Triplets α) {i : Nat} (h : i < t.numRows) :
    t.compress.pattern.rowColumns i = (t.row i).map Prod.fst := by
  rw [pattern_compress, Pattern.rowColumns_ofRows _ _ (by simpa using h)]
  simp

/-- The rows of a compressed matrix ascend. -/
theorem ascending_compress (t : Triplets α) : t.compress.pattern.Ascending := by
  intro i hi
  have hi : i < t.numRows := by simpa [compress, Pattern.ofRows] using hi
  rw [rowColumns_compress t hi]
  exact List.pairwise_map.mpr (pairwise_row t i)

/-- Entries inside the shape make a well-formed matrix. -/
theorem wellFormed_compress {t : Triplets α} (h : ∀ e ∈ t.entries, e.col < t.numCols) :
    t.compress.pattern.WellFormed := by
  rw [pattern_compress]
  refine Pattern.wellFormed_ofRows ?_
  intro row hrow j hj
  obtain ⟨i, _, rfl⟩ := List.mem_map.mp hrow
  obtain ⟨p, hp, rfl⟩ := List.mem_map.mp hj
  obtain ⟨e, he, heq⟩ := col_mem_of_mem_row hp
  rw [← heq]
  exact h e he

/-- The parts of a compressed matrix fit together. -/
theorem check_compress {t : Triplets α} (h : ∀ e ∈ t.entries, e.col < t.numCols) :
    t.compress.check = .ok () := by
  have hsize : t.compress.values.size = t.compress.pattern.columns.size := by
    simp [compress, Pattern.ofRows, List.flatMap_def, List.map_map, Function.comp_def]
  rw [Compressed.check, hsize]
  exact (wellFormed_compress h).checkArrays_eq

end Triplets

namespace Problem

variable {α : Type}

/-! ## Pieces stay in the columns of their blocks -/

theorem col_lt_of_mem_triplets {piece : Piece α} {bound : Nat} [Zero α]
    (h : piece.col + piece.entries.cols ≤ bound) {e : Triplet α} (he : e ∈ piece.triplets) :
    e.col < bound := by
  obtain ⟨i, _, hmem⟩ := List.mem_flatMap.mp he
  obtain ⟨j, hj, rfl⟩ := List.mem_map.mp hmem
  have := List.mem_range.mp hj
  show piece.col + j < bound
  omega

/-- The columns of a range end where the columns do. -/
theorem first_add_le {bounds : ColumnBounds} (t : bounds.Tiled) {i : Nat} {range : ColumnRange}
    (h : bounds.range (.integer i) = .ok range) (hsize : range.size ≠ 0) :
    range.first + range.width ≤ bounds.numCols.toNat := by
  unfold ColumnBounds.range at h
  simp only [Atom.handle?] at h
  split at h
  · simp only [Except.ok.injEq, Int.toNat_natCast] at h
    subst h
    have hpos : 0 < (bounds.rangeAt i).width := by
      have := t.size_nonneg i
      unfold ColumnRange.width
      omega
    have hlast : (bounds.rangeAt i).first + (bounds.rangeAt i).width - 1 ∈
        (bounds.rangeAt i).columns := by
      rw [ColumnRange.mem_columns]
      omega
    have := t.lt_numCols hlast
    omega
  · cases h

theorem col_lt_of_piecesOf {bounds : ColumnBounds} (t : bounds.Tiled) {row residuals : Nat}
    {blocks : List Nat} {Js : List (Dense α)} {pieces : List (Piece α)}
    (h : piecesOf bounds row residuals blocks Js = .ok pieces) :
    ∀ piece ∈ pieces, piece.col + piece.entries.cols ≤ bounds.numCols.toNat := by
  induction blocks generalizing Js pieces with
  | nil =>
    simp only [piecesOf, Except.ok.injEq] at h
    subst h
    intro piece hpiece
    cases hpiece
  | cons i blocks ih =>
    cases Js with
    | nil =>
      simp only [piecesOf, Except.ok.injEq] at h
      subst h
      intro piece hpiece
      cases hpiece
    | cons J Js =>
      rw [piecesOf] at h
      cases hrange : bounds.range (.integer i) with
      | error e => simp [hrange, bind, Except.bind] at h
      | ok range =>
        simp only [hrange, bind, Except.bind] at h
        split at h
        · exact ih h
        · rename_i hsize
          split at h
          · rename_i hshape
            cases hrest : piecesOf bounds row residuals blocks Js with
            | error e => simp [hrest] at h
            | ok rest =>
              simp only [hrest, pure, Except.pure, Except.ok.injEq] at h
              subst h
              intro piece hpiece
              rcases List.mem_cons.mp hpiece with rfl | hpiece
              · have hwidth : J.cols = range.width := by
                  unfold ColumnRange.width
                  omega
                show range.first + J.cols ≤ _
                rw [hwidth]
                exact first_add_le t hrange hsize
              · exact ih hrest piece hpiece
          · cases h

theorem col_lt_of_stack {bounds : ColumnBounds} (t : bounds.Tiled) {row last : Nat}
    {found : List (ResidualBlock α × Evaluated α)} {pieces : List (Piece α)}
    (h : stack bounds row found = .ok (last, pieces)) :
    ∀ piece ∈ pieces, piece.col + piece.entries.cols ≤ bounds.numCols.toNat := by
  induction found generalizing row last pieces with
  | nil =>
    simp only [stack, Except.ok.injEq, Prod.mk.injEq] at h
    obtain ⟨_, rfl⟩ := h
    intro piece hpiece
    cases hpiece
  | cons re found ih =>
    obtain ⟨r, e⟩ := re
    rw [stack] at h
    cases hpieces : piecesOf bounds row e.residuals r.blocks e.jacobians with
    | error e => simp [hpieces, bind, Except.bind] at h
    | ok front =>
      cases hrest : stack bounds (row + e.residuals) found with
      | error e => simp [hpieces, hrest, bind, Except.bind] at h
      | ok more =>
        obtain ⟨last', more⟩ := more
        simp only [hpieces, hrest, bind, Except.bind, pure, Except.pure, Except.ok.injEq,
          Prod.mk.injEq] at h
        obtain ⟨_, rfl⟩ := h
        intro piece hpiece
        rcases List.mem_append.mp hpiece with hpiece | hpiece
        · exact col_lt_of_piecesOf t hpieces piece hpiece
        · exact ih hrest piece hpiece

variable [Zero α] [One α] [Add α] [Sub α] [Mul α] [Div α] [NatCast α] [BEq α] [LE α]
  [DecidableLE α] [Elementary α]

variable {p : Problem α} {schedule : Schedule} {bounds : ColumnBounds} {applyLoss : Bool}
  {threads : Int} {J : Compressed α}

/-- A Jacobian over tiled columns is compressed from entries inside these columns. -/
theorem exists_triplets_of_jacobian (t : bounds.Tiled)
    (h : (p.jacobian schedule bounds applyLoss threads).answer = .ok J) :
    ∃ ts : Triplets α, ts.compress = J ∧ ts.numCols = bounds.numCols.toNat ∧
      ∀ e ∈ ts.entries, e.col < ts.numCols := by
  unfold jacobian at h
  cases hevaluated : p.evaluateAll schedule bounds applyLoss threads with
  | error e => simp [hevaluated, bind, Except.bind] at h
  | ok evaluated =>
    cases hstacked : stack bounds 0 (p.residuals.toList.zip evaluated) with
    | error e => simp [hevaluated, hstacked, bind, Except.bind] at h
    | ok stacked =>
      obtain ⟨rows, pieces⟩ := stacked
      simp only [hevaluated, hstacked, bind, Except.bind, Except.ok.injEq] at h
      refine ⟨_, h, rfl, ?_⟩
      intro e he
      obtain ⟨piece, hpiece, he⟩ := List.mem_flatMap.mp he
      exact col_lt_of_mem_triplets (col_lt_of_stack t hstacked piece hpiece) he

/-- **The shape of a Jacobian.** A Jacobian over tiled columns has these columns, a well-formed
pattern and ascending rows. -/
theorem pattern_jacobian (t : bounds.Tiled)
    (h : (p.jacobian schedule bounds applyLoss threads).answer = .ok J) :
    J.pattern.numCols = bounds.numCols.toNat ∧ J.pattern.WellFormed ∧ J.pattern.Ascending := by
  obtain ⟨ts, rfl, hcols, hlt⟩ := exists_triplets_of_jacobian t h
  exact ⟨hcols, Triplets.wellFormed_compress hlt, Triplets.ascending_compress ts⟩

/-- The parts of a Jacobian fit together. -/
theorem check_jacobian (t : bounds.Tiled)
    (h : (p.jacobian schedule bounds applyLoss threads).answer = .ok J) : J.check = .ok () := by
  obtain ⟨ts, rfl, -, hlt⟩ := exists_triplets_of_jacobian t h
  exact Triplets.check_compress hlt

end Problem

end LeastSquares
