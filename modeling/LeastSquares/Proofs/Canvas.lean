/-
LeastSquares.Proofs.Canvas — a joint matrix, written in place.

A joint matrix is made of places: place `u` of member `i` is a row and a column of it (`place_lt`,
`exists_place`), and its entry at two places is one of the block of their members, or one of the
transposed block below the diagonal (`get_assemble`).

The blocks of the upper triangle are written into one array, each of them into the rows and the
columns of its two members and a second time, mirrored, below the diagonal. What is written for a
pair are the entries that have its members as row and as column, in either order, so no entry is
written for two pairs; and since every row and every column belongs to a member, none is left out:
the entries of all pairs are those of the matrix, each of them once (`perm_entriesOf`). What is
written there is what the matrix of all blocks has (`put_some`, `shows_assemble`), so there is no
trace of the order in which threads write: `finished_foldl_put`, and `finished_collect` for a run.
-/
import Mathlib.Data.List.Nodup
import Mathlib.Data.List.ProdSigma
import LeastSquares.Covariance.Query
import LeastSquares.Proofs.Collection
import LeastSquares.Proofs.Enumeration

namespace LeastSquares.Covariance

/-! ## Places -/

/-- The size of a member of a joint matrix. -/
def sizeAt (sizes : List Nat) (i : Nat) : Nat := sizes.getD i 0

/-- Where place `u` of member `i` is in a joint matrix. -/
def place (sizes : List Nat) (i u : Nat) : Nat := offset (sizeAt sizes) i + u

theorem sizeAt_eq {sizes : List Nat} {i n : Nat} (h : sizes[i]? = some n) : sizeAt sizes i = n := by
  rw [sizeAt, List.getD_eq_getElem?_getD, h, Option.getD_some]

/-- Only members have places. -/
theorem lt_length_of_lt_sizeAt {sizes : List Nat} {i u : Nat} (h : u < sizeAt sizes i) :
    i < sizes.length := by
  rcases Nat.lt_or_ge i sizes.length with hi | hi
  · exact hi
  · rw [sizeAt, List.getD_eq_getElem?_getD, List.getElem?_eq_none hi] at h
    exact absurd h (Nat.not_lt_zero u)

/-- The rows of a joint matrix: the number of the block each belongs to, and its place
there. -/
def rowsOf (sizes : List Nat) : List (Nat × Nat) :=
  sizes.zipIdx.flatMap fun (size, i) => (List.range size).map fun u => (i, u)

theorem rowsOf_eq (sizes : List Nat) :
    rowsOf sizes = (List.range sizes.length).flatMap fun i =>
      (List.range (sizeAt sizes i)).map fun u => (i, u) := by
  have hzip : sizes.zipIdx = (List.range sizes.length).map fun i => (sizeAt sizes i, i) := by
    apply List.ext_getElem
    · simp
    · intro i hi _
      have hi : i < sizes.length := by simpa using hi
      simp [sizeAt, hi]
  rw [rowsOf, hzip, List.flatMap_map]

theorem length_rowsOf (sizes : List Nat) :
    (rowsOf sizes).length = offset (sizeAt sizes) sizes.length := by
  rw [rowsOf_eq, length_flatMap_range]
  simp only [List.length_map, List.length_range]

theorem length_rowsOf_eq_totalSize (sizes : List Nat) :
    (rowsOf sizes).length = totalSize sizes := by
  have hsizes : sizes.zipIdx.map (fun member => member.1) = sizes := List.zipIdx_map_fst 0 sizes
  rw [rowsOf, List.flatMap_def, ← totalSize_map_length, List.map_map]
  simp only [Function.comp_def, List.length_map, List.length_range, hsizes]

/-- Each place belongs to its own member. -/
theorem getElem?_rowsOf {sizes : List Nat} {i u : Nat} (h : u < sizeAt sizes i) :
    (rowsOf sizes)[place sizes i u]? = some (i, u) := by
  have hread := getElem?_flatMap_range
    (fun i => (List.range (sizeAt sizes i)).map fun u => (i, u)) (lt_length_of_lt_sizeAt h)
    (v := u) (by simpa using h)
  simp only [List.length_map, List.length_range] at hread
  rw [rowsOf_eq, place, hread]
  simp [h]

theorem place_lt {sizes : List Nat} {i u : Nat} (h : u < sizeAt sizes i) :
    place sizes i u < (rowsOf sizes).length :=
  (List.getElem?_eq_some_iff.mp (getElem?_rowsOf h)).1

/-- Every row and every column of a joint matrix is a place of a member. -/
theorem exists_place {sizes : List Nat} {r : Nat} (h : r < (rowsOf sizes).length) :
    ∃ i u, u < sizeAt sizes i ∧ r = place sizes i u := by
  rw [length_rowsOf] at h
  obtain ⟨i, -, hle, hlt⟩ := exists_offset_le (sizeAt sizes) h
  exact ⟨i, r - offset (sizeAt sizes) i, by omega, (Nat.add_sub_cancel' hle).symm⟩

section Assembling

variable {α : Type} [Zero α]

/-- The matrix of the blocks of an upper triangle. -/
def assemble (sizes : List Nat) (blocks : Array (Dense α)) : Dense α :=
  let rows := (rowsOf sizes).toArray
  let n := sizes.length
  let blockAt (i j : Nat) : Dense α := blocks.getD (Triangle.index n i j) (Dense.zeros 0 0)
  Dense.ofFn rows.size rows.size fun r c =>
    let (i, u) := rows.getD r (0, 0)
    let (j, v) := rows.getD c (0, 0)
    if i ≤ j then stretched (blockAt i j) u v else stretched (blockAt j i) v u

theorem rows_assemble (sizes : List Nat) (blocks : Array (Dense α)) :
    (assemble sizes blocks).rows = (rowsOf sizes).length := rfl

theorem cols_assemble (sizes : List Nat) (blocks : Array (Dense α)) :
    (assemble sizes blocks).cols = (rowsOf sizes).length := rfl

/-- The block of two members in a list of the blocks of all pairs. -/
def pairBlock (n : Nat) (blocks : List (Dense α)) (i j : Nat) : Dense α :=
  blocks.toArray.getD (Triangle.index n i j) (Dense.zeros 0 0)

/-- The entry at two places is one of the block of their members, mirrored below the diagonal. -/
theorem get_assemble (blocks : List (Dense α)) {sizes : List Nat} {i j u v : Nat}
    (hu : u < sizeAt sizes i) (hv : v < sizeAt sizes j) :
    (assemble sizes blocks.toArray).get (place sizes i u) (place sizes j v) =
      if i ≤ j then stretched (pairBlock sizes.length blocks i j) u v
      else stretched (pairBlock sizes.length blocks j i) v u := by
  have hrow : ∀ {i u : Nat}, u < sizeAt sizes i →
      (rowsOf sizes).toArray.getD (place sizes i u) (0, 0) = (i, u) := by
    intro i u h
    rw [Array.getD_eq_getD_getElem?, List.getElem?_toArray, getElem?_rowsOf h, Option.getD_some]
  unfold assemble
  rw [Dense.get_ofFn_of_lt _ (by simpa using place_lt hu) (by simpa using place_lt hv)]
  simp only [hrow hu, hrow hv]
  rfl

end Assembling

/-! ## Layouts -/

section Layouts

variable {sizes : List Nat} {i j : Nat}

namespace Layout

@[simp] theorem members_ofSizes (sizes : List Nat) : (ofSizes sizes).members = sizes.length := by
  simp [members, ofSizes]

theorem start_ofSizes (h : i ≤ sizes.length) :
    (ofSizes sizes).start i = offset (sizeAt sizes) i := by
  have htake : (List.range i).map (sizeAt sizes) = sizes.take i := by
    apply List.ext_getElem
    · simp [h]
    · intro k hk _
      have hk : k < i := by simpa using hk
      simp [sizeAt, show k < sizes.length by omega]
  simp [start, ofSizes, getElem?_runningSums 0 sizes h, offset, htake]

theorem size_ofSizes (h : i < sizes.length) : (ofSizes sizes).size i = sizeAt sizes i := by
  rw [size, start_ofSizes h, start_ofSizes (Nat.le_of_lt h), offset_succ, Nat.add_sub_cancel_left]

theorem side_ofSizes (sizes : List Nat) : (ofSizes sizes).side = (rowsOf sizes).length := by
  rw [side, members_ofSizes, start_ofSizes (Nat.le_refl _), length_rowsOf]

/-- The entries of the block of two members. -/
def entries (l : Layout) (i j : Nat) : List Nat := (l.cells i j).map (l.entry i j)

/-- The entries that are written for a pair: those of its block, and of its mirror image. -/
def entriesOf (l : Layout) (k : Nat) : List Nat :=
  let (i, j) := Triangle.pair l.members k
  if i = j then l.entries i j else l.entries i j ++ l.entries j i

theorem mem_cells {l : Layout} {cell : Nat × Nat} :
    cell ∈ l.cells i j ↔ cell.1 < l.size i ∧ cell.2 < l.size j := by
  obtain ⟨u, v⟩ := cell
  simp [cells]

theorem nodup_cells (l : Layout) (i j : Nat) : (l.cells i j).Nodup :=
  List.nodup_range.product List.nodup_range

/-- An entry is told by its row and its column. -/
theorem entry_ofSizes (hi : i < sizes.length) (hj : j < sizes.length) (cell : Nat × Nat) :
    (ofSizes sizes).entry i j cell =
      place sizes i cell.1 * (rowsOf sizes).length + place sizes j cell.2 := by
  rw [entry, start_ofSizes (Nat.le_of_lt hi), start_ofSizes (Nat.le_of_lt hj), side_ofSizes]
  rfl

theorem mem_entries (hi : i < sizes.length) (hj : j < sizes.length) {p : Nat} :
    p ∈ (ofSizes sizes).entries i j ↔ ∃ u v, u < sizeAt sizes i ∧ v < sizeAt sizes j ∧
      p = place sizes i u * (rowsOf sizes).length + place sizes j v := by
  simp only [entries, List.mem_map, mem_cells, Prod.exists, entry_ofSizes hi hj, size_ofSizes hi,
    size_ofSizes hj, and_assoc]
  exact exists₂_congr fun u v => and_congr_right fun _ => and_congr_right fun _ => eq_comm

end Layout

/-- A place belongs to one member, as one of its rows. -/
theorem place_inj {u u' : Nat} {i' : Nat} (hu : u < sizeAt sizes i) (hu' : u' < sizeAt sizes i')
    (h : place sizes i u = place sizes i' u') : i = i' ∧ u = u' := by
  have hrow := getElem?_rowsOf hu
  rw [h, getElem?_rowsOf hu'] at hrow
  simpa [eq_comm] using hrow

namespace Layout

theorem nodup_entries (hi : i < sizes.length) (hj : j < sizes.length) :
    ((ofSizes sizes).entries i j).Nodup := by
  refine List.Nodup.map_on ?_ (nodup_cells _ i j)
  intro cell hcell cell' hcell' h
  rw [mem_cells, size_ofSizes hi, size_ofSizes hj] at hcell hcell'
  rw [entry_ofSizes hi hj, entry_ofSizes hi hj] at h
  obtain ⟨hrow, hcol⟩ := Dense.offset_inj (place_lt hcell.2) (place_lt hcell'.2) h
  exact Prod.ext (place_inj hcell.1 hcell'.1 hrow).2 (place_inj hcell.2 hcell'.2 hcol).2

/-- An entry has one member as its row and one as its column. -/
theorem eq_of_mem_entries {i' j' p : Nat} (hi : i < sizes.length) (hj : j < sizes.length)
    (hi' : i' < sizes.length) (hj' : j' < sizes.length) (h : p ∈ (ofSizes sizes).entries i j)
    (h' : p ∈ (ofSizes sizes).entries i' j') : i = i' ∧ j = j' := by
  obtain ⟨u, v, hu, hv, rfl⟩ := (mem_entries hi hj).mp h
  obtain ⟨u', v', hu', hv', hp⟩ := (mem_entries hi' hj').mp h'
  obtain ⟨hrow, hcol⟩ := Dense.offset_inj (place_lt hv) (place_lt hv') hp
  exact ⟨(place_inj hu hu' hrow).1, (place_inj hv hv' hcol).1⟩

/-- Each entry has members as its row and its column. -/
theorem exists_mem_entries {p : Nat}
    (h : p < (rowsOf sizes).length * (rowsOf sizes).length) :
    ∃ i j, i < sizes.length ∧ j < sizes.length ∧ p ∈ (ofSizes sizes).entries i j := by
  have hcol : p % (rowsOf sizes).length < (rowsOf sizes).length :=
    Nat.mod_lt _ (Nat.pos_of_lt_mul_left h)
  obtain ⟨i, u, hu, hrow⟩ := exists_place (Nat.div_lt_of_lt_mul h)
  obtain ⟨j, v, hv, hplace⟩ := exists_place hcol
  have hi := lt_length_of_lt_sizeAt hu
  have hj := lt_length_of_lt_sizeAt hv
  refine ⟨i, j, hi, hj, (mem_entries hi hj).mpr ⟨u, v, hu, hv, ?_⟩⟩
  rw [← hrow, ← hplace, Nat.div_add_mod']

theorem lt_of_mem_entries {p : Nat} (hi : i < sizes.length) (hj : j < sizes.length)
    (h : p ∈ (ofSizes sizes).entries i j) :
    p < (rowsOf sizes).length * (rowsOf sizes).length := by
  obtain ⟨u, v, hu, hv, rfl⟩ := (mem_entries hi hj).mp h
  exact Dense.offset_lt (place_lt hu) (place_lt hv)

/-! ### Pairs -/

theorem entriesOf_index (hij : i ≤ j) (hj : j < sizes.length) :
    (ofSizes sizes).entriesOf (Triangle.index sizes.length i j) =
      if i = j then (ofSizes sizes).entries i j
      else (ofSizes sizes).entries i j ++ (ofSizes sizes).entries j i := by
  rw [entriesOf, members_ofSizes, (Triangle.pair_index hij hj).2]

theorem mem_entriesOf {p : Nat} (hij : i ≤ j) (hj : j < sizes.length) :
    p ∈ (ofSizes sizes).entriesOf (Triangle.index sizes.length i j) ↔
      p ∈ (ofSizes sizes).entries i j ∨ p ∈ (ofSizes sizes).entries j i := by
  rw [entriesOf_index hij hj]
  split
  · rename_i heq
    subst heq
    exact or_self_iff.symm
  · exact List.mem_append

/-- No entry is written twice for a pair. -/
theorem nodup_entriesOf (hij : i ≤ j) (hj : j < sizes.length) :
    ((ofSizes sizes).entriesOf (Triangle.index sizes.length i j)).Nodup := by
  have hi : i < sizes.length := by omega
  rw [entriesOf_index hij hj]
  split
  · exact nodup_entries hi hj
  · rename_i hne
    rw [List.nodup_append']
    refine ⟨nodup_entries hi hj, nodup_entries hj hi, fun p hp hp' => ?_⟩
    exact hne (eq_of_mem_entries hi hj hj hi hp hp').1

/-- No entry is written for two pairs. -/
theorem index_eq_of_mem_entriesOf {i' j' p : Nat} (hij : i ≤ j) (hj : j < sizes.length)
    (hij' : i' ≤ j') (hj' : j' < sizes.length)
    (h : p ∈ (ofSizes sizes).entriesOf (Triangle.index sizes.length i j))
    (h' : p ∈ (ofSizes sizes).entriesOf (Triangle.index sizes.length i' j')) :
    i = i' ∧ j = j' := by
  have hi : i < sizes.length := by omega
  have hi' : i' < sizes.length := by omega
  rw [mem_entriesOf hij hj] at h
  rw [mem_entriesOf hij' hj'] at h'
  rcases h with h | h <;> rcases h' with h' | h'
  · exact eq_of_mem_entries hi hj hi' hj' h h'
  · have := eq_of_mem_entries hi hj hj' hi' h h'
    omega
  · have := eq_of_mem_entries hj hi hi' hj' h h'
    omega
  · exact (eq_of_mem_entries hj hi hj' hi' h h').symm

/-- **The entries of all pairs** are those of the matrix, each of them once. -/
theorem perm_entriesOf (sizes : List Nat) :
    ((List.range (Triangle.count sizes.length)).flatMap (ofSizes sizes).entriesOf).Perm
      (List.range ((ofSizes sizes).side * (ofSizes sizes).side)) := by
  rw [side_ofSizes]
  refine (List.perm_ext_iff_of_nodup ?_ List.nodup_range).mpr fun p => ?_
  · refine List.nodup_flatMap.mpr ⟨fun k hk => ?_, ?_⟩
    · obtain ⟨i, j, hij, hj, rfl⟩ := Triangle.exists_index (List.mem_range.mp hk)
      exact nodup_entriesOf hij hj
    · refine List.nodup_range.pairwise_of_forall_ne fun k hk k' hk' hne p hp hp' => hne ?_
      obtain ⟨i, j, hij, hj, rfl⟩ := Triangle.exists_index (List.mem_range.mp hk)
      obtain ⟨i', j', hij', hj', rfl⟩ := Triangle.exists_index (List.mem_range.mp hk')
      obtain ⟨rfl, rfl⟩ := index_eq_of_mem_entriesOf hij hj hij' hj' hp hp'
      rfl
  · rw [List.mem_flatMap, List.mem_range]
    constructor
    · rintro ⟨k, hk, hp⟩
      obtain ⟨i, j, hij, hj, rfl⟩ := Triangle.exists_index (List.mem_range.mp hk)
      rcases (mem_entriesOf hij hj).mp hp with h | h
      · exact lt_of_mem_entries (by omega) hj h
      · exact lt_of_mem_entries hj (by omega) h
    · intro hp
      obtain ⟨i, j, hi, hj, h⟩ := exists_mem_entries hp
      rcases Nat.le_total i j with hij | hij
      · exact ⟨_, List.mem_range.mpr (Triangle.pair_index hij hj).1,
          (mem_entriesOf hij hj).mpr (.inl h)⟩
      · exact ⟨_, List.mem_range.mpr (Triangle.pair_index hij hi).1,
          (mem_entriesOf hij hi).mpr (.inr h)⟩

end Layout

end Layouts

/-! ## Writing -/

section Writing

variable {α : Type}

/-- Writing a block writes the values of its entries. -/
theorem Layout.write_eq (l : Layout) {i j : Nat} {f : Nat → Nat → α} {value : Nat → α}
    (h : ∀ cell ∈ l.cells i j, f cell.1 cell.2 = value (l.entry i j cell)) (written : Array α) :
    l.write i j f written = Parallel.writeAll value written (l.entries i j) := by
  rw [write, Parallel.writeAll, entries, List.foldl_map]
  exact List.foldl_ext _ _ _ fun written cell hcell => by rw [h cell hcell]

/-- Writing a block leaves all other entries alone. -/
theorem Layout.getElem?_write (l : Layout) {i j p : Nat} (f : Nat → Nat → α) (written : Array α)
    (h : p ∉ l.entries i j) : (l.write i j f written)[p]? = written[p]? := by
  unfold entries at h
  unfold write
  generalize l.cells i j = cells at h ⊢
  induction cells generalizing written with
  | nil => rfl
  | cons cell cells ih =>
    rw [List.map_cons, List.mem_cons, not_or] at h
    rw [List.foldl_cons, ih _ h.2, Array.getElem?_setIfInBounds_ne (Ne.symm h.1)]

variable [Zero α]

namespace Canvas

/-- **A pair** changes its entries and its mark alone. -/
theorem put_frame (l : Layout) (k : Nat) (found : Option (Dense α)) (canvas : Canvas α) :
    (∀ p, p ∉ l.entriesOf k → (canvas.put l k found).entries[p]? = canvas.entries[p]?) ∧
      ∀ k', k' ≠ k → (canvas.put l k found).missing[k']? = canvas.missing[k']? := by
  obtain ⟨written, missing⟩ := canvas
  unfold put Layout.entriesOf
  generalize Triangle.pair l.members k = pair
  obtain ⟨i, j⟩ := pair
  cases found with
  | none => exact ⟨fun _ _ => rfl, fun k' hk' => Array.getElem?_setIfInBounds_ne hk'.symm⟩
  | some B =>
    dsimp only
    split
    · exact ⟨fun p hp => l.getElem?_write _ _ hp, fun _ _ => rfl⟩
    · refine ⟨fun p hp => ?_, fun _ _ => rfl⟩
      rw [List.mem_append, not_or] at hp
      rw [l.getElem?_write _ _ hp.2, l.getElem?_write _ _ hp.1]

/-- The values of the entries of a pair are those that its block has there. -/
structure Shows (l : Layout) (value : Nat → α) (pair : Nat × Nat) (B : Dense α) : Prop where
  block : ∀ cell ∈ l.cells pair.1 pair.2,
    stretched B cell.1 cell.2 = value (l.entry pair.1 pair.2 cell)
  mirrored : pair.1 ≠ pair.2 → ∀ cell ∈ l.cells pair.2 pair.1,
    stretched B cell.2 cell.1 = value (l.entry pair.2 pair.1 cell)

variable {l : Layout}

/-- **One pair** with a block writes its entries. -/
theorem put_some {value : Nat → α} {k : Nat} {B : Dense α}
    (h : Shows l value (Triangle.pair l.members k) B) (canvas : Canvas α) :
    canvas.put l k (some B) =
      ⟨Parallel.writeAll value canvas.entries (l.entriesOf k), canvas.missing⟩ := by
  obtain ⟨written, missing⟩ := canvas
  unfold put Layout.entriesOf
  generalize Triangle.pair l.members k = pair at h
  obtain ⟨i, j⟩ := pair
  dsimp only
  rw [l.write_eq h.block]
  split
  · rfl
  · rename_i hne
    rw [l.write_eq (h.mirrored hne), Parallel.writeAll_append]

/-- **All pairs**, if each has a block, write the entries of all of them. -/
theorem foldl_put_some {value : Nat → α} {found : Nat → Option (Dense α)} {ks : List Nat}
    (h : ∀ k ∈ ks, ∃ B, found k = some B ∧ Shows l value (Triangle.pair l.members k) B)
    (canvas : Canvas α) :
    ks.foldl (fun canvas k => canvas.put l k (found k)) canvas =
      ⟨Parallel.writeAll value canvas.entries (ks.flatMap l.entriesOf), canvas.missing⟩ := by
  induction ks generalizing canvas with
  | nil => rfl
  | cons k ks ih =>
    obtain ⟨B, hB, hshows⟩ := h k List.mem_cons_self
    rw [List.foldl_cons, hB, put_some hshows, ih fun k' hk' => h k' (List.mem_cons_of_mem _ hk'),
      List.flatMap_cons, Parallel.writeAll_append]

theorem missing_put (k : Nat) (found : Option (Dense α)) (canvas : Canvas α) :
    (canvas.put l k found).missing =
      if found.isNone then canvas.missing.setIfInBounds k true else canvas.missing := by
  obtain ⟨written, missing⟩ := canvas
  cases found with
  | none => rfl
  | some B =>
    unfold put
    dsimp only
    split <;> rfl

/-- The pairs without a block are marked. -/
theorem missing_foldl_put (found : Nat → Option (Dense α)) (ks : List Nat) (canvas : Canvas α) :
    (ks.foldl (fun canvas k => canvas.put l k (found k)) canvas).missing =
      Parallel.writeAll (fun _ => true) canvas.missing
        (ks.filter fun k => (found k).isNone) := by
  induction ks generalizing canvas with
  | nil => rfl
  | cons k ks ih =>
    rw [List.foldl_cons, ih, missing_put, List.filter_cons]
    split <;> rfl

theorem finished_of_unmarked (l : Layout) (entries : Array α) (n : Nat) :
    finished l ⟨entries, Array.replicate n false⟩ = some (.ofArray l.side l.side entries) := by
  rw [finished, Array.any_replicate, if_neg (by simp)]

/-- A mark stays until the end. -/
theorem finished_eq_none {found : Nat → Option (Dense α)} {ks : List Nat} {k : Nat}
    (hk : k ∈ ks) (hcount : k < Triangle.count l.members) (hnone : found k = none) :
    (ks.foldl (fun canvas k => canvas.put l k (found k)) (blank l)).finished l = none := by
  have hmarked : (ks.foldl (fun canvas k => canvas.put l k (found k)) (blank l)).missing[k]? =
      some true := by
    rw [missing_foldl_put, Parallel.getElem?_writeAll _ _ _ (by simpa [blank] using hcount),
      if_pos (List.mem_filter.mpr ⟨hk, by rw [hnone]; rfl⟩)]
  rw [finished, if_pos]
  rw [Array.any_eq_true']
  exact ⟨true, Array.mem_of_getElem? hmarked, rfl⟩

end Canvas

/-- The matrix of all blocks shows each of them at the entries of its pair. -/
theorem shows_assemble (blocks : List (Dense α)) {sizes : List Nat} {i j : Nat} (hij : i ≤ j)
    (hj : j < sizes.length) :
    Canvas.Shows (.ofSizes sizes) (fun p => (assemble sizes blocks.toArray).data.getD p 0) (i, j)
      (pairBlock sizes.length blocks i j) := by
  have hi : i < sizes.length := by omega
  have hvalue : ∀ {i j : Nat} (hi : i < sizes.length) (hj : j < sizes.length),
      ∀ cell ∈ (Layout.ofSizes sizes).cells i j,
        (assemble sizes blocks.toArray).data.getD ((Layout.ofSizes sizes).entry i j cell) 0 =
          if i ≤ j then stretched (pairBlock sizes.length blocks i j) cell.1 cell.2
          else stretched (pairBlock sizes.length blocks j i) cell.2 cell.1 := by
    intro i j hi hj cell hcell
    rw [Layout.mem_cells, Layout.size_ofSizes hi, Layout.size_ofSizes hj] at hcell
    rw [← get_assemble blocks hcell.1 hcell.2, Dense.get, cols_assemble,
      if_pos (place_lt hcell.2), Layout.entry_ofSizes hi hj]
  refine ⟨fun cell hcell => ?_, fun hne cell hcell => ?_⟩
  · rw [hvalue hi hj cell hcell, if_pos hij]
  · rw [hvalue hj hi cell hcell, if_neg (show ¬ j ≤ i by omega)]

theorem exists_shows {blocks : List (Dense α)} {sizes : List Nat}
    (hlength : blocks.length = Triangle.count sizes.length) {k : Nat}
    (hk : k < Triangle.count sizes.length) :
    ∃ B, (blocks.map some).getD k none = some B ∧
      Canvas.Shows (.ofSizes sizes) (fun p => (assemble sizes blocks.toArray).data.getD p 0)
        (Triangle.pair sizes.length k) B := by
  obtain ⟨i, j, hij, hj, rfl⟩ := Triangle.exists_index hk
  refine ⟨pairBlock sizes.length blocks i j, ?_, ?_⟩
  · simp [pairBlock, Array.getD_eq_getD_getElem?, hlength, hk]
  · rw [(Triangle.pair_index hij hj).2]
    exact shows_assemble blocks hij hj

/-- **A canvas on which all pairs were put**, in whatever order, is the matrix of their blocks, if
each of them has one. -/
theorem finished_foldl_put {sizes : List Nat} {found : List (Option (Dense α))}
    (hlength : found.length = Triangle.count sizes.length) {ks : List Nat}
    (hks : ks.Perm (List.range (Triangle.count sizes.length))) :
    let layout := Layout.ofSizes sizes
    (ks.foldl (fun canvas k => canvas.put layout k (found.getD k none))
      (Canvas.blank layout)).finished layout =
        (found.mapM id).map fun blocks => assemble sizes blocks.toArray := by
  intro layout
  have hmembers : layout.members = sizes.length := Layout.members_ofSizes sizes
  have hmem : ∀ k, k ∈ ks ↔ k < Triangle.count sizes.length := fun k => by
    rw [hks.mem_iff, List.mem_range]
  cases hfound : found.mapM id with
  | none =>
    obtain ⟨k, hk⟩ := List.mem_iff_getElem?.mp (mapM_id_eq_none_iff.mp hfound)
    have hlt : k < Triangle.count sizes.length := by
      rw [← hlength]
      exact (List.getElem?_eq_some_iff.mp hk).1
    refine Canvas.finished_eq_none ((hmem k).mpr hlt) (by rwa [hmembers]) ?_
    rw [List.getD_eq_getElem?_getD, hk]
    rfl
  | some blocks =>
    rw [mapM_eq_some_iff, List.map_id] at hfound
    subst hfound
    rw [List.length_map] at hlength
    have hshows : ∀ k ∈ ks, ∃ B, (blocks.map some).getD k none = some B ∧
        Canvas.Shows layout (fun p => (assemble sizes blocks.toArray).data.getD p 0)
          (Triangle.pair layout.members k) B := by
      intro k hk
      rw [hmembers]
      exact exists_shows hlength ((hmem k).mp hk)
    have hentries : (ks.flatMap layout.entriesOf).Perm
        (List.range (layout.side * layout.side)) :=
      (hks.flatMap_right _).trans (Layout.perm_entriesOf sizes)
    have hside : layout.side = (rowsOf sizes).length := Layout.side_ofSizes sizes
    rw [hside] at hentries
    have hdata := Parallel.writeAll_getD (assemble sizes blocks.toArray).data
      (assemble sizes blocks.toArray).size_eq hentries
    have hread := Dense.ofArray_data (assemble sizes blocks.toArray)
    rw [rows_assemble, cols_assemble] at hdata hread
    rw [Canvas.foldl_put_some hshows, Canvas.blank, Canvas.finished_of_unmarked, hside, hdata,
      hread]
    rfl

/-- **Threads that draw.** What threads write that answer every pair is the matrix of the blocks, if
each pair has one, whatever the schedule and their number. -/
theorem finished_collect {ν ε : Type} {sizes : List Nat} {found : List (Option (Dense α))}
    (hlength : found.length = Triangle.count sizes.length)
    {task : Nat → List ν × Except ε (Option (Dense α))}
    (h : ∀ k B, found[k]? = some B → (task k).2 = .ok B) (schedule : Schedule) (threads : Int) :
    let layout := Layout.ofSizes sizes
    (Parallel.collect schedule (Triangle.count sizes.length) threads task (Canvas.put layout)
      (Canvas.blank layout)).1.memory.finished layout =
        (found.mapM id).map fun blocks => assemble sizes blocks.toArray := by
  intro layout
  have hsteps : ∀ k, k < Triangle.count sizes.length → ∃ B, (task k).2 = .ok B ∧
      ∀ canvas : Canvas α, canvas.put layout k B = canvas.put layout k (found.getD k none) := by
    intro k hk
    obtain ⟨B, hB⟩ : ∃ B, found[k]? = some B := ⟨_, List.getElem?_eq_getElem (hlength ▸ hk)⟩
    refine ⟨B, h k B hB, fun canvas => ?_⟩
    rw [List.getD_eq_getElem?_getD, hB, Option.getD_some]
  rw [Parallel.memory_collect hsteps]
  exact finished_foldl_put hlength (Parallel.perm_range_scheduled schedule _ threads)

end Writing

end LeastSquares.Covariance
