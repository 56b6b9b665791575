/-
LeastSquares.Proofs.Placement — where the pieces of a Jacobian go.

A Jacobian is made of pieces, one for each parameter block with columns of each residual block. The
pieces become triplets, and the triplets are compressed row by row. This module follows a piece all
the way.

* `lookup_row` and `sparseRow_compress`: a compressed matrix stores at an entry the value that the
  triplets give for it, if exactly one does, and nothing if none does.
* `filterMap_at?_placedAll`: of all pieces at most one covers an entry. Rows tell the residual
  blocks apart, because they are stacked; columns tell the parameter blocks apart, because they
  tile; and no residual block names a parameter block twice.
* `stored_jacobian` puts both together: in the rows of a residual block and the columns of a
  parameter block stand the entries of the Jacobian that this residual block has for this parameter
  block, and nothing is stored where it has none.
-/
import Mathlib.Data.List.Basic
import LeastSquares.Proofs.Assembly
import LeastSquares.Proofs.Editing
import LeastSquares.Proofs.Evaluation

namespace LeastSquares

/-! ## What a compressed matrix stores -/

namespace Triplets

variable {α : Type} [Add α]

theorem lookup_insert_of_ne {j k : Nat} (h : k ≠ j) (v : α) (row : List (Nat × α)) :
    (insert j v row).lookup k = row.lookup k := by
  have hkj : (k == j) = false := by simpa using h
  induction row with
  | nil => simp [insert, List.lookup_cons, hkj]
  | cons p row ih =>
    obtain ⟨l, w⟩ := p
    rw [insert]
    split
    · simp [List.lookup_cons, hkj]
    · split
      · rename_i hjl
        subst hjl
        simp [List.lookup_cons, hkj]
      · simp [List.lookup_cons, ih]

/-- A value that is put where there is none yet is stored as it is. -/
theorem lookup_insert_self {j : Nat} {v : α} {row : List (Nat × α)} (h : row.lookup j = none) :
    (insert j v row).lookup j = some v := by
  induction row with
  | nil => simp [insert]
  | cons p row ih =>
    obtain ⟨l, w⟩ := p
    rw [List.lookup_cons] at h
    rw [insert]
    split
    · simp
    · split
      · rename_i hjl
        simp [hjl] at h
      · rename_i hjl
        have hne : (j == l) = false := by simpa using hjl
        rw [hne] at h
        simp [List.lookup_cons, hne, ih h]

/-- Values of other columns leave what is stored. -/
theorem lookup_foldl_of_ne {j : Nat} {entries : List (Triplet α)} (h : ∀ e ∈ entries, e.col ≠ j)
    (row : List (Nat × α)) :
    (entries.foldl (fun row e => insert e.col e.value row) row).lookup j = row.lookup j := by
  induction entries generalizing row with
  | nil => rfl
  | cons e entries ih =>
    rw [List.foldl_cons, ih fun e' he' => h e' (List.mem_cons_of_mem _ he'),
      lookup_insert_of_ne (h e List.mem_cons_self).symm]

/-- The values that are given for an entry. -/
def valuesAt (t : Triplets α) (i j : Nat) : List α :=
  t.entries.filterMap fun e => if e.row = i ∧ e.col = j then some e.value else none

/-- A row stores the one value that is given for an entry, or nothing if none is given. -/
theorem lookup_row {t : Triplets α} {i j : Nat} {o : Option α} (h : t.valuesAt i j = o.toList) :
    (t.row i).lookup j = o := by
  have hfold : ∀ (entries : List (Triplet α)) (row : List (Nat × α)) (o : Option α),
      row.lookup j = none → (∀ e ∈ entries, e.row = i) →
      (entries.filterMap fun e => if e.row = i ∧ e.col = j then some e.value else none) =
        o.toList →
      (entries.foldl (fun row e => insert e.col e.value row) row).lookup j = o := by
    intro entries
    induction entries with
    | nil =>
      intro row o hrow _ hvalues
      cases o with
      | none => exact hrow
      | some v => cases hvalues
    | cons e entries ih =>
      intro row o hrow hrows hvalues
      have hrest : ∀ e' ∈ entries, e'.row = i := fun e' he' => hrows e' (List.mem_cons_of_mem _ he')
      rw [List.filterMap_cons] at hvalues
      rw [List.foldl_cons]
      by_cases hcol : e.col = j
      · simp only [hrows e List.mem_cons_self, hcol, and_self, if_true] at hvalues
        cases o with
        | none => cases hvalues
        | some v =>
          obtain ⟨rfl, hnone⟩ := List.cons.inj hvalues
          have hothers : ∀ e' ∈ entries, e'.col ≠ j := by
            intro e' he' hcol'
            have := List.filterMap_eq_nil_iff.mp hnone e' he'
            simp [hrest e' he', hcol'] at this
          rw [lookup_foldl_of_ne hothers, hcol, lookup_insert_self hrow]
      · simp only [hcol, and_false, if_false] at hvalues
        refine ih _ o ?_ hrest hvalues
        rw [lookup_insert_of_ne (Ne.symm hcol), hrow]
  refine hfold _ [] o rfl ?_ ?_
  · intro e he
    simpa using (List.mem_filter.mp he).2
  · rw [← h, valuesAt, List.filterMap_filter]
    refine congrArg (fun g => List.filterMap g t.entries) (funext fun e => ?_)
    by_cases hrow : e.row = i
    · simp [hrow]
    · simp [hrow]

/-- The rows of a compressed matrix are those of the triplets. -/
theorem sparseRow_compress [Zero α] (t : Triplets α) {i : Nat} (h : i < t.numRows) :
    t.compress.sparseRow i = t.row i := by
  have hlength : ∀ k, k < t.numRows → t.compress.pattern.rowLength k = (t.row k).length := by
    intro k hk
    have := congrArg List.length (rowColumns_compress t hk)
    simpa [Pattern.rowColumns, Pattern.positions] using this
  have hstart : t.compress.pattern.start i = offset (fun k => ((t.row k).map Prod.snd).length) i := by
    rw [pattern_compress, Pattern.start_ofRows _ _ (by simpa using Nat.le_of_lt h), offset]
    refine congrArg totalSize ?_
    rw [← List.map_take, List.take_range, Nat.min_eq_left (Nat.le_of_lt h), List.map_map]
    refine List.map_congr_left fun k _ => ?_
    simp
  have hvalues : t.compress.values =
      ((List.range t.numRows).flatMap fun k => (t.row k).map Prod.snd).toArray := by
    simp only [compress, toList_rowTable, List.flatMap_map]
  have hcolumns := rowColumns_compress t h
  apply List.ext_getElem?
  intro m
  rcases Nat.lt_or_ge m (t.row i).length with hm | hm
  · have hcolumn := congrArg (fun l => l[m]?) hcolumns
    have hvalue : t.compress.value (t.compress.pattern.start i + m) = ((t.row i)[m]).2 := by
      have hread := getElem?_flatMap_range (fun k => (t.row k).map Prod.snd) h
        (v := m) (by simpa using hm)
      rw [Compressed.value, hvalues, hstart, Array.getD_eq_getD_getElem?, List.getElem?_toArray,
        hread]
      simp [hm]
    have hpos : m < t.compress.pattern.rowLength i := by
      rw [hlength i h]
      exact hm
    simp only [Pattern.rowColumns, Pattern.positions, List.getElem?_map,
      List.getElem?_range' hpos, Nat.one_mul, Option.map_some, List.getElem?_eq_getElem hm,
      Option.some.injEq] at hcolumn
    simp only [Compressed.sparseRow, Pattern.positions, List.getElem?_map,
      List.getElem?_range' hpos, Nat.one_mul, Option.map_some, List.getElem?_eq_getElem hm,
      hcolumn, hvalue]
  · have hnone : t.compress.pattern.rowLength i ≤ m := by
      rw [hlength i h]
      exact hm
    simp [Compressed.sparseRow, Pattern.positions, hm, hnone]

end Triplets

/-- The value that is stored at an entry, if one is. -/
def Compressed.stored? {α : Type} [Zero α] (A : Compressed α) (i j : Nat) : Option α :=
  (A.sparseRow i).lookup j

/-! ## What a piece covers -/

section Lists

variable {β γ : Type}

/-- Of adjacent places at most one is the place looked for. -/
theorem flatMap_range_ite (g : Nat → List β) (n a r : Nat) :
    ((List.range n).flatMap fun i => if a + i = r then g i else []) =
      if a ≤ r ∧ r < a + n then g (r - a) else [] := by
  induction n with
  | zero => rw [if_neg (by omega), List.range_zero, List.flatMap_nil]
  | succ n ih =>
    rw [flatMap_range_succ, ih]
    by_cases hlast : a + n = r
    · subst hlast
      simp
    · have hiff : (a ≤ r ∧ r < a + (n + 1)) ↔ (a ≤ r ∧ r < a + n) := by omega
      simp only [hlast, if_false, List.append_nil, hiff]

/-- Only the member with a key is read, if keys are not repeated. -/
theorem filterMap_key {l : List (Nat × β)} (h : (l.map Prod.fst).Nodup) (key : Nat)
    (f : β → Option γ) :
    (l.filterMap fun p => if p.1 = key then f p.2 else none) =
      ((l.lookup key).bind f).toList := by
  induction l with
  | nil => rfl
  | cons p l ih =>
    obtain ⟨k, b⟩ := p
    obtain ⟨hk, hl⟩ := List.nodup_cons.mp h
    rw [List.filterMap_cons, List.lookup_cons]
    by_cases hkey : k = key
    · subst hkey
      have hnone : (l.filterMap fun p => if p.1 = k then f p.2 else none) = [] := by
        refine List.filterMap_eq_nil_iff.mpr fun p hp => if_neg fun heq => hk ?_
        exact List.mem_map.mpr ⟨p, hp, heq⟩
      simp only [if_true, hnone, beq_self_eq_true, Option.bind_some]
      cases f b <;> rfl
    · have hne : (key == k) = false := by simpa using Ne.symm hkey
      simp only [if_neg hkey, hne, ih hl]

/-- Pairing does not repeat what was not repeated. -/
theorem nodup_map_fst_zip {l : List β} (h : l.Nodup) (l' : List γ) :
    ((l.zip l').map Prod.fst).Nodup := by
  induction l generalizing l' with
  | nil => exact List.nodup_nil
  | cons x l ih =>
    cases l' with
    | nil => exact List.nodup_nil
    | cons y l' =>
      obtain ⟨hx, hl⟩ := List.nodup_cons.mp h
      refine List.nodup_cons.mpr ⟨fun hmem => hx ?_, ih hl l'⟩
      obtain ⟨p, hp, heq⟩ := List.mem_map.mp hmem
      have heq : p.1 = x := heq
      rw [← heq]
      exact (List.of_mem_zip hp).1

end Lists

namespace Problem

variable {α : Type}

section Covering

variable [Zero α]

/-- The entry of a piece at a row and a column of the larger matrix. -/
def Piece.at? (piece : Piece α) (r c : Nat) : Option α :=
  if (piece.row ≤ r ∧ r < piece.row + piece.entries.rows) ∧
      (piece.col ≤ c ∧ c < piece.col + piece.entries.cols) then
    some (piece.entries.get (r - piece.row) (c - piece.col))
  else none

/-- A piece gives at most one value for an entry. -/
theorem filterMap_triplets (piece : Piece α) (r c : Nat) :
    (piece.triplets.filterMap fun e =>
      if e.row = r ∧ e.col = c then some e.value else none) = (piece.at? r c).toList := by
  have hrow : ∀ i, (((List.range piece.entries.cols).map fun j =>
      (⟨piece.row + i, piece.col + j, piece.entries.get i j⟩ : Triplet α)).filterMap fun e =>
        if e.row = r ∧ e.col = c then some e.value else none) =
      if piece.row + i = r then
        (if piece.col ≤ c ∧ c < piece.col + piece.entries.cols then
          [piece.entries.get i (c - piece.col)] else []) else [] := by
    intro i
    rw [← flatMap_range_ite fun j => [piece.entries.get i j], List.filterMap_map,
      List.filterMap_eq_flatMap_toList]
    by_cases hi : piece.row + i = r
    · rw [if_pos hi]
      refine congrArg (fun g => List.flatMap g _) (funext fun j => ?_)
      by_cases hj : piece.col + j = c
      · simp [hi, hj]
      · simp [hj]
    · simp [hi]
  rw [Piece.triplets, List.filterMap_flatMap]
  simp only [hrow]
  rw [flatMap_range_ite fun i => if piece.col ≤ c ∧ c < piece.col + piece.entries.cols then
    [piece.entries.get i (c - piece.col)] else []]
  unfold Piece.at?
  by_cases hr : piece.row ≤ r ∧ r < piece.row + piece.entries.rows
  · by_cases hc : piece.col ≤ c ∧ c < piece.col + piece.entries.cols
    · simp [hr, hc]
    · simp [hr, hc]
  · simp [hr]

theorem valuesAt_pieces (rows cols : Nat) (pieces : List (Piece α)) (r c : Nat) :
    (Triplets.mk rows cols (pieces.flatMap Piece.triplets)).valuesAt r c =
      pieces.filterMap fun piece => piece.at? r c := by
  rw [Triplets.valuesAt, List.filterMap_flatMap, List.filterMap_eq_flatMap_toList]
  simp only [filterMap_triplets]

end Covering

/-! ## Which pieces there are -/

/-- The pieces of some blocks with columns, in their places. -/
def placed (bounds : ColumnBounds) (row : Nat) (blocks : List Nat) (Js : List (Dense α)) :
    List (Piece α) :=
  (blocks.zip Js).filterMap fun iJ =>
    if (bounds.rangeAt iJ.1).size = 0 then none
    else some ⟨row, (bounds.rangeAt iJ.1).first, iJ.2⟩

/-- Where a block has columns, its Jacobian has them too, and a row for each residual. -/
def Fits (bounds : ColumnBounds) (residuals : Nat) (blocks : List Nat) (Js : List (Dense α)) :
    Prop :=
  ∀ iJ ∈ blocks.zip Js, (bounds.rangeAt iJ.1).size ≠ 0 →
    iJ.2.rows = residuals ∧ (iJ.2.cols : Int) = (bounds.rangeAt iJ.1).size

/-- Pieces are made where the Jacobians fit. -/
theorem piecesOf_eq_ok_iff {bounds : ColumnBounds} {row residuals : Nat} {blocks : List Nat}
    {Js : List (Dense α)} {pieces : List (Piece α)}
    (h : ∀ i ∈ blocks, i < bounds.ranges.size) :
    piecesOf bounds row residuals blocks Js = .ok pieces ↔
      Fits bounds residuals blocks Js ∧ placed bounds row blocks Js = pieces := by
  induction blocks generalizing Js pieces with
  | nil => simp [piecesOf, Fits, placed]
  | cons i blocks ih =>
    cases Js with
    | nil => simp [piecesOf, Fits, placed]
    | cons J Js =>
      have hrest := fun j hj => h j (List.mem_cons_of_mem i hj)
      rw [piecesOf, bounds.range_natCast (h i List.mem_cons_self)]
      simp only [bind, Except.bind, Fits, placed, List.zip_cons_cons, List.forall_mem_cons,
        List.filterMap_cons]
      by_cases hsize : (bounds.rangeAt i).size = 0
      · rw [if_pos hsize, ih hrest]
        simp [hsize, Fits, placed]
      · by_cases hshape : J.rows = residuals ∧ (J.cols : Int) = (bounds.rangeAt i).size
        · rw [if_neg hsize, if_pos hshape]
          constructor
          · intro hpieces
            obtain ⟨rest, hpiecesOf, hcons⟩ := bind_eq_ok_iff.mp hpieces
            obtain ⟨hfits, hplaced⟩ := (ih hrest).mp hpiecesOf
            refine ⟨⟨fun _ => hshape, hfits⟩, ?_⟩
            cases hcons
            simp [hsize, ← hplaced, placed]
          · rintro ⟨⟨-, hfits⟩, hplaced⟩
            have hpiecesOf : piecesOf bounds row residuals blocks Js =
                .ok (placed bounds row blocks Js) := (ih hrest).mpr ⟨hfits, rfl⟩
            refine bind_eq_ok_iff.mpr ⟨_, hpiecesOf, ?_⟩
            rw [← hplaced]
            simp [hsize, placed, pure, Except.pure]
        · rw [if_neg hsize, if_neg hshape]
          simp [hsize, hshape]

/-- The pieces of all residual blocks, in their places. -/
def placedAll (bounds : ColumnBounds) : Nat → List (ResidualBlock α × Evaluated α) → List (Piece α)
  | _, [] => []
  | row, (r, e) :: rest =>
    placed bounds row r.blocks e.jacobians ++ placedAll bounds (row + e.residuals) rest

/-- Residual blocks are stacked where all their Jacobians fit. -/
theorem stack_eq_ok_iff {bounds : ColumnBounds} {row last : Nat}
    {found : List (ResidualBlock α × Evaluated α)} {pieces : List (Piece α)}
    (h : ∀ re ∈ found, ∀ i ∈ re.1.blocks, i < bounds.ranges.size) :
    stack bounds row found = .ok (last, pieces) ↔
      (∀ re ∈ found, Fits bounds re.2.residuals re.1.blocks re.2.jacobians) ∧
        last = row + totalSize (found.map fun re => re.2.residuals) ∧
        placedAll bounds row found = pieces := by
  induction found generalizing row last pieces with
  | nil =>
    simp only [stack, placedAll, Except.ok.injEq, Prod.mk.injEq, List.map_nil, totalSize_nil,
      List.not_mem_nil, false_implies, implies_true, true_and, Nat.add_zero]
    exact and_congr_left fun _ => eq_comm
  | cons re found ih =>
    obtain ⟨r, e⟩ := re
    have hrest := fun q hq => h q (List.mem_cons_of_mem _ hq)
    have hhead := h (r, e) List.mem_cons_self
    rw [stack, bind_eq_ok_iff]
    simp only [List.forall_mem_cons, placedAll, List.map_cons, totalSize_cons]
    constructor
    · rintro ⟨front, hfront, hpieces⟩
      obtain ⟨⟨last', more⟩, hmore, heq⟩ := bind_eq_ok_iff.mp hpieces
      cases heq
      obtain ⟨hfits, rfl⟩ := (piecesOf_eq_ok_iff hhead).mp hfront
      obtain ⟨hall, rfl, rfl⟩ := (ih hrest).mp hmore
      exact ⟨⟨hfits, hall⟩, by omega, rfl⟩
    · rintro ⟨⟨hfits, hall⟩, rfl, rfl⟩
      refine ⟨_, (piecesOf_eq_ok_iff hhead).mpr ⟨hfits, rfl⟩, ?_⟩
      refine bind_eq_ok_iff.mpr ⟨_, (ih hrest).mpr ⟨hall, rfl, rfl⟩, ?_⟩
      rw [Nat.add_assoc]
      rfl

/-! ## One piece for each entry -/

section Finding

variable [Zero α] {bounds : ColumnBounds}

/-- In the columns of a block, the pieces of a residual block cover what its Jacobian for this
block covers. -/
theorem filterMap_at?_placed (t : bounds.Tiled) {row residuals : Nat} {blocks : List Nat}
    {Js : List (Dense α)} (fits : Fits bounds residuals blocks Js) (nodup : blocks.Nodup) {i v : Nat}
    (hv : v < bounds.widthAt i) (r : Nat) :
    ((placed bounds row blocks Js).filterMap fun piece =>
      piece.at? r ((bounds.rangeAt i).first + v)) =
        if row ≤ r ∧ r < row + residuals then
          (((blocks.zip Js).lookup i).map fun J => J.get (r - row) v).toList
        else [] := by
  have hmember : ∀ iJ ∈ blocks.zip Js,
      ((if (bounds.rangeAt iJ.1).size = 0 then none
        else some (⟨row, (bounds.rangeAt iJ.1).first, iJ.2⟩ : Piece α)).bind fun piece =>
          piece.at? r ((bounds.rangeAt i).first + v)) =
        if iJ.1 = i then
          (if row ≤ r ∧ r < row + residuals then some (iJ.2.get (r - row) v) else none)
        else none := by
    intro iJ hiJ
    obtain ⟨j, J⟩ := iJ
    have hwidth : bounds.widthAt j = ((bounds.rangeAt j).size).toNat := rfl
    by_cases hsize : (bounds.rangeAt j).size = 0
    · have hne : j ≠ i := by
        rintro rfl
        omega
      simp [hsize, hne]
    · obtain ⟨hrows, hcols⟩ := fits (j, J) hiJ hsize
      simp only at hrows hcols
      simp only [if_neg hsize, Option.bind_some, Piece.at?, hrows]
      by_cases hji : j = i
      · subst hji
        have hcover : (bounds.rangeAt j).first ≤ (bounds.rangeAt j).first + v ∧
            (bounds.rangeAt j).first + v < (bounds.rangeAt j).first + J.cols := by omega
        simp only [if_true, hcover, and_self, and_true, Nat.add_sub_cancel_left]
      · have hmiss : ¬ ((bounds.rangeAt j).first ≤ (bounds.rangeAt i).first + v ∧
            (bounds.rangeAt i).first + v < (bounds.rangeAt j).first + J.cols) := by
          intro hcover
          refine hji (t.eq_of_mem_columns (k := (bounds.rangeAt i).first + v) ?_ ?_)
          · refine ColumnRange.mem_columns.mpr ⟨hcover.1, ?_⟩
            have hwidth : (bounds.rangeAt j).width = ((bounds.rangeAt j).size).toNat := rfl
            omega
          · exact ColumnRange.mem_columns.mpr ⟨Nat.le_add_right _ _, Nat.add_lt_add_left hv _⟩
        rw [if_neg hji, if_neg fun h => hmiss h.2]
  rw [placed, List.filterMap_filterMap, List.filterMap_congr hmember,
    filterMap_key (nodup_map_fst_zip nodup Js) i fun J =>
      if row ≤ r ∧ r < row + residuals then some (J.get (r - row) v) else none]
  split
  · cases (blocks.zip Js).lookup i <;> rfl
  · cases (blocks.zip Js).lookup i <;> rfl

/-- Above a row there is nothing of what is stacked from it on. -/
theorem filterMap_at?_of_lt (t : bounds.Tiled) {row : Nat}
    {found : List (ResidualBlock α × Evaluated α)}
    (fits : ∀ re ∈ found, Fits bounds re.2.residuals re.1.blocks re.2.jacobians)
    (nodup : ∀ re ∈ found, re.1.blocks.Nodup) {i v : Nat} (hv : v < bounds.widthAt i) {r : Nat}
    (hr : r < row) :
    ((placedAll bounds row found).filterMap fun piece =>
      piece.at? r ((bounds.rangeAt i).first + v)) = [] := by
  induction found generalizing row with
  | nil => rfl
  | cons re found ih =>
    rw [placedAll, List.filterMap_append,
      filterMap_at?_placed t (fits re List.mem_cons_self) (nodup re List.mem_cons_self) hv,
      if_neg (by omega), List.nil_append]
    exact ih (fun q hq => fits q (List.mem_cons_of_mem _ hq))
      (fun q hq => nodup q (List.mem_cons_of_mem _ hq)) (by omega)

/-- In the rows of a residual block and the columns of a parameter block, only the piece of this
residual block for this parameter block covers anything. -/
theorem filterMap_at?_placedAll (t : bounds.Tiled) (row : Nat)
    {found : List (ResidualBlock α × Evaluated α)}
    (fits : ∀ re ∈ found, Fits bounds re.2.residuals re.1.blocks re.2.jacobians)
    (nodup : ∀ re ∈ found, re.1.blocks.Nodup) {k : Nat} {r : ResidualBlock α} {e : Evaluated α}
    (hk : found[k]? = some (r, e)) {i u v : Nat} (hu : u < e.residuals)
    (hv : v < bounds.widthAt i) :
    ((placedAll bounds row found).filterMap fun piece =>
      piece.at? (row + totalSize ((found.take k).map fun re => re.2.residuals) + u)
        ((bounds.rangeAt i).first + v)) =
      (((r.blocks.zip e.jacobians).lookup i).map fun J => J.get u v).toList := by
  induction found generalizing row k with
  | nil => cases hk
  | cons re found ih =>
    have hfits := fun q hq => fits q (List.mem_cons_of_mem _ hq)
    have hnodup := fun q hq => nodup q (List.mem_cons_of_mem _ hq)
    rw [placedAll, List.filterMap_append,
      filterMap_at?_placed t (fits re List.mem_cons_self) (nodup re List.mem_cons_self) hv]
    cases k with
    | zero =>
      obtain rfl : re = (r, e) := by simpa using hk
      rw [filterMap_at?_of_lt t hfits hnodup hv (by simp; omega), if_pos (by simp; omega),
        List.append_nil]
      simp
    | succ k =>
      have hrow : row + totalSize (((re :: found).take (k + 1)).map fun re => re.2.residuals) =
          row + re.2.residuals + totalSize ((found.take k).map fun re => re.2.residuals) := by
        simp [Nat.add_assoc]
      rw [hrow, if_neg (by omega), List.nil_append]
      exact ih _ hfits hnodup (by simpa using hk)

end Finding

/-! ## What a Jacobian stores -/

theorem totalSize_take_add_lt {sizes : List Nat} {k n u : Nat} (h : sizes[k]? = some n)
    (hu : u < n) : totalSize (sizes.take k) + u < totalSize sizes := by
  induction sizes generalizing k with
  | nil => cases h
  | cons first rest ih =>
    cases k with
    | zero =>
      obtain rfl : first = n := by simpa using h
      simp
      omega
    | succ k =>
      have := ih (by simpa using h)
      simp
      omega

/-- Every row is a residual of some residual block. -/
theorem exists_of_lt_totalSize {sizes : List Nat} {r : Nat} (h : r < totalSize sizes) :
    ∃ k n u, sizes[k]? = some n ∧ u < n ∧ r = totalSize (sizes.take k) + u := by
  induction sizes generalizing r with
  | nil => exact absurd h (Nat.not_lt_zero r)
  | cons first rest ih =>
    rw [totalSize_cons] at h
    rcases Nat.lt_or_ge r first with hr | hr
    · exact ⟨0, first, r, rfl, hr, by simp⟩
    · obtain ⟨k, n, u, hk, hu, heq⟩ := ih (r := r - first) (by omega)
      refine ⟨k + 1, n, u, hk, hu, ?_⟩
      rw [List.take_succ_cons, totalSize_cons]
      omega

/-! ## The rows of residual blocks -/

section Rows

/-- The first row of a residual block: the residuals of those before it are above. -/
def rowStart (p : Problem α) (k : Nat) : Nat :=
  totalSize ((p.residuals.toList.map p.residualCount).take k)

/-- Behind the last residual block all residuals are above. -/
theorem rowStart_size (p : Problem α) :
    p.rowStart p.residuals.size = totalSize (p.residuals.toList.map p.residualCount) := by
  rw [rowStart, List.take_of_length_le (by simp)]

theorem getElem?_residualCounts {p : Problem α} {k : Nat} {r : ResidualBlock α}
    (h : p.residuals[k]? = some r) :
    (p.residuals.toList.map p.residualCount)[k]? = some (p.residualCount r) := by
  rw [List.getElem?_map, Array.getElem?_toList, h]
  rfl

/-- The rows of a residual block are rows of the problem. -/
theorem rowStart_add_lt {p : Problem α} {k u : Nat} {r : ResidualBlock α}
    (h : p.residuals[k]? = some r) (hu : u < p.residualCount r) :
    p.rowStart k + u < p.rowStart p.residuals.size := by
  rw [rowStart_size]
  exact totalSize_take_add_lt (getElem?_residualCounts h) hu

/-- Every row of the problem is a row of some residual block. -/
theorem exists_rowStart_add {p : Problem α} {row : Nat}
    (h : row < p.rowStart p.residuals.size) :
    ∃ k r u, p.residuals[k]? = some r ∧ u < p.residualCount r ∧ row = p.rowStart k + u := by
  rw [rowStart_size] at h
  obtain ⟨k, n, u, hk, hu, rfl⟩ := exists_of_lt_totalSize h
  rw [List.getElem?_map, Array.getElem?_toList] at hk
  obtain ⟨r, hr, rfl⟩ := Option.map_eq_some_iff.mp hk
  exact ⟨k, r, u, hr, hu, rfl⟩

end Rows

/-! ## The whole Jacobian -/

variable [Zero α] [One α] [Add α] [Sub α] [Mul α] [Div α] [NatCast α] [BEq α] [LE α]
  [DecidableLE α] [Elementary α]

/-- Where everything is evaluated and fits, there is a Jacobian. -/
theorem jacobian_of_fits {p : Problem α} (s : p.Sound) {bounds : ColumnBounds} {applyLoss : Bool}
    (hsize : bounds.ranges.size = p.blocks.size) {projections : Array (Option (Dense α))}
    {found : List (Evaluated α)} (hprojections : p.projections bounds = .ok projections)
    (hfound : p.residuals.toList.mapM (p.evaluate projections applyLoss) = .ok found)
    (hfits : ∀ re ∈ p.residuals.toList.zip found,
      Fits bounds re.2.residuals re.1.blocks re.2.jacobians)
    (schedule : Schedule) (threads : Int) :
    ∃ J, (p.jacobian schedule bounds applyLoss threads).answer = .ok J := by
  have hblocks : ∀ re ∈ p.residuals.toList.zip found, ∀ i ∈ re.1.blocks,
      i < bounds.ranges.size := by
    intro re hre i hi
    rw [hsize]
    exact s.lt_size (Array.mem_toList_iff.mp (List.of_mem_zip hre).1) hi
  have hstack : stack bounds 0 (p.residuals.toList.zip found) = .ok (_, _) :=
    (stack_eq_ok_iff hblocks).mpr ⟨hfits, rfl, rfl⟩
  exact ⟨_, jacobian_eq_ok_iff.mpr ⟨projections, found, _, _, hprojections, hfound, hstack, rfl⟩⟩


/-- **What a Jacobian stores.** In the rows of a residual block and the columns of a parameter block
a Jacobian stores the entries that the residual block has for the parameter block, and nothing where
it has none. -/
theorem stored_jacobian {p : Problem α} (s : p.Sound) {schedule : Schedule} {bounds : ColumnBounds}
    {applyLoss : Bool} {threads : Int} {J : Compressed α} (t : bounds.Tiled)
    (hsize : bounds.ranges.size = p.blocks.size)
    (h : (p.jacobian schedule bounds applyLoss threads).answer = .ok J) :
    ∃ projections found, p.projections bounds = .ok projections ∧
      p.residuals.toList.mapM (p.evaluate projections applyLoss) = .ok found ∧
      J.pattern.numRows = p.rowStart p.residuals.size ∧
      J.pattern.numCols = bounds.numCols.toNat ∧
      ∀ k r e, p.residuals[k]? = some r → found[k]? = some e →
        Fits bounds (p.residualCount r) r.blocks e.jacobians ∧
        ∀ i u v, u < p.residualCount r → v < bounds.widthAt i →
          J.stored? (p.rowStart k + u) ((bounds.rangeAt i).first + v) =
            ((r.blocks.zip e.jacobians).lookup i).map fun J => J.get u v := by
  obtain ⟨projections, found, rows, pieces, hprojections, hfound, hstack, rfl⟩ :=
    jacobian_eq_ok_iff.mp h
  have hused : ∀ re ∈ p.residuals.toList.zip found, re.1 ∈ p.residuals := fun re hre =>
    Array.mem_toList_iff.mp (List.of_mem_zip hre).1
  obtain ⟨hfits, hrows, rfl⟩ := (stack_eq_ok_iff fun re hre i hi => by
    rw [hsize]
    exact s.lt_size (hused re hre) hi).mp hstack
  have hcounts : (p.residuals.toList.zip found).map (fun re => re.2.residuals) =
      p.residuals.toList.map p.residualCount := by
    have hfst := congrArg (List.map p.residualCount)
      (List.map_fst_zip (Nat.le_of_eq (length_of_mapM_eq_ok hfound).symm))
    rw [List.map_map] at hfst
    rw [← hfst]
    refine List.map_congr_left fun re hre => ?_
    obtain ⟨k, hk⟩ := List.mem_iff_getElem?.mp hre
    obtain ⟨hr, he⟩ := List.getElem?_zip_eq_some.mp hk
    obtain ⟨e, hfound, hevaluate⟩ := getElem?_of_mapM_eq_ok hfound hr
    rw [he] at hfound
    cases hfound
    exact residuals_of_evaluate hevaluate
  rw [Nat.zero_add, hcounts] at hrows
  refine ⟨projections, found, hprojections, hfound, ?_, rfl, ?_⟩
  · rw [Triplets.pattern_compress, rowStart_size]
    simp [Pattern.ofRows, hrows]
  · intro k r e hr he
    have hr' : p.residuals.toList[k]? = some r := by rw [Array.getElem?_toList]; exact hr
    have hk : (p.residuals.toList.zip found)[k]? = some (r, e) :=
      List.getElem?_zip_eq_some.mpr ⟨hr', he⟩
    obtain ⟨e', he', hevaluate⟩ := getElem?_of_mapM_eq_ok hfound hr'
    rw [he] at he'
    cases he'
    have hcount := residuals_of_evaluate hevaluate
    have hfitsk := hfits _ (List.mem_of_getElem? hk)
    rw [← hcount]
    refine ⟨hfitsk, ?_⟩
    intro i u v hu hv
    have hrow : p.rowStart k + u < rows := by
      rw [hrows, ← rowStart_size]
      exact rowStart_add_lt hr (by rw [← hcount]; exact hu)
    rw [Compressed.stored?, Triplets.sparseRow_compress _ hrow]
    refine Triplets.lookup_row ?_
    rw [valuesAt_pieces]
    have hcovered := filterMap_at?_placedAll t 0 hfits (fun re hre => s.nodup _ (hused re hre)) hk
      hu hv
    rw [Nat.zero_add, List.map_take, hcounts] at hcovered
    exact hcovered

end Problem

end LeastSquares
