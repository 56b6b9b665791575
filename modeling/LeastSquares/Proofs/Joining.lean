/-
LeastSquares.Proofs.Joining — a joint matrix, taken apart into its blocks.

The blocks of a joint matrix are read by threads, one for each pair of handles of which the first
one is not behind the second. What the threads do is a traversal of these pairs row by row, and what
they have written is the matrix of the blocks that the traversal gives (`answer_matrixIn`). So the
matrix is the same for every number of threads and every schedule, and where it fails, the first
pair that fails says how. `joined_of_matrixIn` says the same entry by entry.
-/
import LeastSquares.Proofs.Canvas
import LeastSquares.Proofs.Collection

namespace LeastSquares.Covariance

open Request

section Members

variable {α : Type}

/-- The sizes of the blocks at some positions. -/
def memberSizes (problem : Problem α) (coordinates : Coordinates) (positions : List Nat) :
    List Nat :=
  positions.map fun i => (coordinates.size (problem.blockAt i)).toNat

theorem mapM_block (problem : Problem α) (handles : List Atom) :
    handles.mapM problem.block =
      (handles.mapM problem.position).map fun positions => positions.map problem.blockAt := by
  induction handles with
  | nil => rfl
  | cons a handles ih =>
    rw [List.mapM_cons, List.mapM_cons, ih, Problem.block]
    cases problem.position a with
    | error e => rfl
    | ok i => cases handles.mapM problem.position <;> rfl

end Members

/-! ## The traversal of the pairs -/

section Joining

variable {α : Type} [Zero α] [One α] [Add α] [Mul α] [Div α] [NatCast α]

/-- The block of two members, which are handles with the sizes of their blocks, checked to go into
its place. -/
def placed (plan : Plan) (values : Array α) (problem : Problem α) (coordinates : Coordinates)
    (pair : (Atom × Int) × (Atom × Int)) : Except Fault (Option (Dense α)) :=
  match (blockIn plan values problem coordinates pair.1.1 pair.2.1).answer with
  | .ok (some B) =>
    if goesInto pair.1.2 B.rows && goesInto pair.2.2 B.cols then .ok (some B) else .error .shapes
  | answer => answer

/-- The blocks of all pairs of members. -/
def placedAll (plan : Plan) (values : Array α) (problem : Problem α) (coordinates : Coordinates)
    (members : List (Atom × Int)) : Except Fault (List (Option (Dense α))) :=
  (allPairs members).mapM (placed plan values problem coordinates)

/-- The member with a number. -/
def memberAt (handles : Array Atom) (sizes : Array Int) (i : Nat) : Atom × Int :=
  (handles.getD i .null, sizes.getD i 0)

/-- What a thread does for the number of a pair is what is done for the pair. -/
theorem snd_blockOfPair (plan : Plan) (values : Array α) (problem : Problem α)
    (coordinates : Coordinates) (handles : Array Atom) (sizes : Array Int) (k : Nat) :
    (blockOfPair plan values problem coordinates handles sizes k).2 =
      placed plan values problem coordinates
        (memberAt handles sizes (Triangle.pair handles.size k).1,
          memberAt handles sizes (Triangle.pair handles.size k).2) := by
  unfold blockOfPair placed memberAt
  generalize Triangle.pair handles.size k = pair
  obtain ⟨i, j⟩ := pair
  dsimp only
  cases (blockIn plan values problem coordinates (handles.getD i .null)
      (handles.getD j .null)).answer with
  | error e => rfl
  | ok found =>
    cases found with
    | none => rfl
    | some B =>
      dsimp only
      split <;> rfl

/-- The pairs of members, by their numbers. -/
theorem allPairs_zip {handles : List Atom} {sizes : List Int}
    (h : sizes.length = handles.length) :
    allPairs (handles.zip sizes) = (List.range (Triangle.count handles.length)).map fun k =>
      (memberAt handles.toArray sizes.toArray (Triangle.pair handles.length k).1,
        memberAt handles.toArray sizes.toArray (Triangle.pair handles.length k).2) := by
  have hzip : handles.zip sizes =
      (List.range handles.length).map (memberAt handles.toArray sizes.toArray) := by
    apply List.ext_getElem
    · simp [h]
    · intro i _ hi
      have hi : i < handles.length := by simpa using hi
      simp [memberAt, Array.getD_eq_getD_getElem?, hi, h]
  rw [hzip, map_allPairs, ← Triangle.map_pair_range, List.map_map]
  rfl

section Traversing

variable (plan : Plan) (values : Array α) (problem : Problem α) (coordinates : Coordinates)
  {handles : List Atom} {sizes : List Int}

/-- A thread finds the block of the pair with its number. -/
theorem snd_blockOfPair_eq (h : sizes.length = handles.length) (k : Nat)
    (hk : k < (allPairs (handles.zip sizes)).toArray.size) :
    (blockOfPair plan values problem coordinates handles.toArray sizes.toArray k).2 =
      placed plan values problem coordinates (allPairs (handles.zip sizes)).toArray[k] := by
  rw [snd_blockOfPair]
  simp [allPairs_zip h]

/-- What the threads have written is the matrix of the blocks of all pairs. -/
theorem finished_of_placedAll {found : List (Option (Dense α))}
    (h : sizes.length = handles.length)
    (hfound : placedAll plan values problem coordinates (handles.zip sizes) = .ok found)
    (schedule : Schedule) (threads : Int) :
    let layout := Layout.ofSizes (sizes.map Int.toNat)
    (Parallel.collect schedule (Triangle.count handles.length) threads
      (blockOfPair plan values problem coordinates handles.toArray sizes.toArray)
      (Canvas.put layout) (Canvas.blank layout)).1.memory.finished layout =
        (found.mapM id).map fun Bs => assemble (sizes.map Int.toNat) Bs.toArray := by
  have hmembers : (sizes.map Int.toNat).length = handles.length := by
    rw [List.length_map, h]
  have hlength : found.length = Triangle.count (sizes.map Int.toNat).length := by
    rw [length_of_mapM_eq_ok hfound, length_allPairs, List.length_zip, h, Nat.min_self, hmembers]
  have hanswers : ∀ k B, found[k]? = some B →
      (blockOfPair plan values problem coordinates handles.toArray sizes.toArray k).2 =
        .ok B := by
    intro k B hB
    obtain ⟨pair, hpair, hplaced⟩ := exists_getElem?_of_mapM_eq_ok hfound hB
    obtain ⟨hk, rfl⟩ := List.getElem?_eq_some_iff.mp hpair
    rw [snd_blockOfPair_eq plan values problem coordinates h k hk]
    exact hplaced
  rw [← hmembers]
  exact finished_collect hlength hanswers schedule threads

end Traversing

/-- **A joint matrix in order.** Whatever the schedule and the number of threads, a joint matrix is
put together from the blocks of a traversal of its pairs, row by row; the first pair that fails
decides how it fails. -/
theorem answer_matrixIn (schedule : Schedule) (threads : Int) (plan : Plan) (values : Array α)
    (problem : Problem α) (coordinates : Coordinates) (handles : List Atom) :
    (matrixIn schedule threads plan values problem coordinates handles).answer =
      match handles.mapM problem.block with
      | .error e => .error e
      | .ok blocks =>
        (placedAll plan values problem coordinates
          (handles.zip (blocks.map coordinates.size))).map fun found => (found.mapM id).map
            fun Bs => assemble ((blocks.map coordinates.size).map Int.toNat) Bs.toArray := by
  unfold matrixIn
  cases hblocks : handles.mapM problem.block with
  | error e => rfl
  | ok blocks =>
    have hsizes : (blocks.map coordinates.size).length = handles.length := by
      rw [List.length_map, length_of_mapM_eq_ok hblocks]
    dsimp only
    generalize blocks.map coordinates.size = sizes at hsizes
    have hcount : (allPairs (handles.zip sizes)).toArray.size = Triangle.count handles.length := by
      simp [length_allPairs, hsizes]
    have hfailure := Parallel.snd_collect_eq
      (snd_blockOfPair_eq plan values problem coordinates hsizes) schedule threads
      (Canvas.put (.ofSizes (sizes.map Int.toNat))) (Canvas.blank (.ofSizes (sizes.map Int.toNat)))
    rw [hcount] at hfailure
    split
    · rename_i shared e hcollect
      rw [hcollect] at hfailure
      rw [placedAll, failure?_eq_some_iff.mp hfailure.symm]
      rfl
    · rename_i shared hcollect
      rw [hcollect] at hfailure
      obtain ⟨found, hfound⟩ := failure?_eq_none_iff.mp hfailure.symm
      have hfinished := finished_of_placedAll plan values problem coordinates hsizes hfound
        schedule threads
      dsimp only at hfinished
      rw [hcollect] at hfinished
      rw [placedAll, hfound]
      simp only [reply, hfinished, Except.map]

/-! ## The blocks of a matrix -/

/-- A matrix is made of blocks, one for each pair of members, and of their transposes below the
diagonal. -/
structure Joined (sizes : List Nat) (block : Nat → Nat → Dense α) (M : Dense α) : Prop where
  rows : M.rows = (rowsOf sizes).length
  cols : M.cols = (rowsOf sizes).length
  get : ∀ i j u v, u < sizeAt sizes i → v < sizeAt sizes j →
    M.get (place sizes i u) (place sizes j v) =
      if i ≤ j then stretched (block i j) u v else stretched (block j i) v u

variable {plan : Plan} {values : Array α} {problem : Problem α} {coordinates : Coordinates}

theorem placed_eq_some {x y : Atom × Int} {B : Dense α}
    (h : placed plan values problem coordinates (x, y) = .ok (some B)) :
    (blockIn plan values problem coordinates x.1 y.1).answer = .ok (some B) ∧
      goesInto x.2 B.rows = true ∧ goesInto y.2 B.cols = true := by
  unfold placed at h
  split at h
  · rename_i B' hanswer
    split at h
    · rename_i hgoes
      obtain rfl : B' = B := by simpa using h
      exact ⟨hanswer, Bool.and_eq_true_iff.mp hgoes⟩
    · cases h
  · rename_i hanswer
    exact absurd h (hanswer B)

/-- A joint matrix that is there is made of the blocks that its pairs are answered with, and each of
them goes into its place. -/
theorem joined_of_matrixIn {schedule : Schedule} {threads : Int} {handles : List Atom} {M : Dense α}
    (h : (matrixIn schedule threads plan values problem coordinates handles).answer =
      .ok (some M)) :
    ∃ positions block, handles.mapM problem.position = .ok positions ∧
      Joined (memberSizes problem coordinates positions) block M ∧
      ∀ i j a b k l, i ≤ j → handles[i]? = some a → handles[j]? = some b →
        positions[i]? = some k → positions[j]? = some l →
        (blockIn plan values problem coordinates a b).answer = .ok (some (block i j)) ∧
          goesInto (coordinates.size (problem.blockAt k)) (block i j).rows = true ∧
          goesInto (coordinates.size (problem.blockAt l)) (block i j).cols = true := by
  rw [answer_matrixIn, mapM_block] at h
  cases hpositions : handles.mapM problem.position with
  | error e => simp [hpositions, Except.map] at h
  | ok positions =>
    simp only [hpositions, Except.map] at h
    obtain ⟨found, hfound, hsome⟩ := map_eq_ok_iff.mp h
    obtain ⟨blocks, hblocks, rfl⟩ := Option.map_eq_some_iff.mp hsome
    rw [mapM_eq_some_iff, List.map_id] at hblocks
    subst hblocks
    have hsizes : (((positions.map problem.blockAt).map coordinates.size).map Int.toNat) =
        memberSizes problem coordinates positions := by
      simp only [memberSizes, List.map_map, Function.comp_def]
    have hlength : positions.length = handles.length := length_of_mapM_eq_ok hpositions
    rw [hsizes]
    refine ⟨positions, pairBlock positions.length blocks, rfl,
      ⟨rfl, rfl, fun i j u v hu hv => ?_⟩, ?_⟩
    · rw [get_assemble blocks hu hv, memberSizes, List.length_map]
    · intro i j a b k l hij ha hb hk hl
      have hmember : ∀ {i : Nat} {a : Atom} {k : Nat}, handles[i]? = some a →
          positions[i]? = some k →
          (handles.zip ((positions.map problem.blockAt).map coordinates.size))[i]? =
            some (a, coordinates.size (problem.blockAt k)) := by
        intro i a k ha hk
        rw [List.getElem?_zip_eq_some]
        exact ⟨ha, by simp [hk]⟩
      have hpair := getElem?_allPairs hij (hmember ha hk) (hmember hb hl)
      obtain ⟨B, hB, hplaced⟩ := getElem?_of_mapM_eq_ok hfound hpair
      have hblock : B = some (pairBlock positions.length blocks i j) := by
        rw [List.length_zip, List.length_map, List.length_map, hlength, Nat.min_self,
          ← hlength, List.getElem?_map] at hB
        obtain ⟨B', hB', rfl⟩ := Option.map_eq_some_iff.mp hB
        rw [pairBlock, Array.getD_eq_getD_getElem?, List.getElem?_toArray, hB', Option.getD_some]
      rw [hblock] at hplaced
      exact placed_eq_some hplaced

end Joining

end LeastSquares.Covariance
