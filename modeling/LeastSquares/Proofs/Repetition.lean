/-
LeastSquares.Proofs.Repetition — the groups of positions that share a key.

Keys are noted one after the other, each with its position. What has been noted of some keys
(`Seen.Records`) is every key once, in the order of the first positions, and for each of them all
positions where it stands; one more key keeps it so (`Seen.Records.add`). Hence the groups that are
reported are the positions of the keys that stand at two positions or more (`repeated_eq`), and
nothing is reported exactly where all keys are different (`checkDistinct_eq`).
-/
import Mathlib.Data.List.Count
import Mathlib.Data.List.Induction
import Mathlib.Data.List.Nodup
import LeastSquares.Request

namespace LeastSquares.Request

section Groups

variable {κ : Type} [BEq κ] [LawfulBEq κ]

/-- The positions of a key, ascending. -/
def positionsOf (keys : List κ) (key : κ) : List Nat :=
  (List.range keys.length).filter fun i => keys[i]? == some key

theorem mem_positionsOf {keys : List κ} {key : κ} {i : Nat} :
    i ∈ positionsOf keys key ↔ keys[i]? = some key := by
  rw [positionsOf, List.mem_filter, List.mem_range, beq_iff_eq]
  constructor
  · exact fun h => h.2
  · exact fun h => ⟨(List.getElem?_eq_some_iff.mp h).1, h⟩

/-- A key that follows adds a position to its own. -/
theorem positionsOf_concat (keys : List κ) (last key : κ) :
    positionsOf (keys ++ [last]) key =
      positionsOf keys key ++ if last == key then [keys.length] else [] := by
  have hfront : (List.range keys.length).filter (fun i => (keys ++ [last])[i]? == some key) =
      positionsOf keys key := by
    refine List.filter_congr fun i hi => ?_
    rw [List.getElem?_append_left (List.mem_range.mp hi)]
  rw [positionsOf, List.length_append, List.length_singleton, List.range_succ, List.filter_append,
    hfront, List.filter_singleton, List.getElem?_append_right (Nat.le_refl _), Nat.sub_self]
  by_cases h : last = key
  · simp [h]
  · have hne : (last == key) = false := by simpa using h
    simp [hne]

theorem length_positionsOf (keys : List κ) (key : κ) :
    (positionsOf keys key).length = keys.count key := by
  induction keys using List.reverseRecOn with
  | nil => rfl
  | append_singleton keys last ih =>
    rw [positionsOf_concat, List.length_append, ih, List.count_append, List.count_singleton]
    split <;> rfl

theorem positionsOf_eq_nil_iff {keys : List κ} {key : κ} : positionsOf keys key = [] ↔ key ∉ keys := by
  rw [← List.length_eq_zero_iff, length_positionsOf, List.count_eq_zero]

/-- A key that follows is kept if it is new. -/
theorem eraseDups_concat (keys : List κ) (last : κ) :
    (keys ++ [last]).eraseDups = keys.eraseDups ++ if last ∈ keys then [] else [last] := by
  rw [List.eraseDups_append]
  congr 1
  by_cases hmem : last ∈ keys <;> simp [List.removeAll, hmem, List.eraseDups_cons]

variable [Hashable κ]

/-! ## Noting keys -/

/-- What has been seen is some keys: each of them once, in the order of their first positions, and
with all of their positions. -/
structure Seen.Records (seen : Seen κ) (keys : List κ) : Prop where
  order_eq : seen.order.reverse = keys.eraseDups
  positions_eq : ∀ key, seen.positions[key]? =
    if key ∈ keys then some (positionsOf keys key).reverse else none

namespace Seen.Records

theorem empty : (Seen.mk [] ∅ : Seen κ).Records [] := ⟨rfl, fun key => by simp⟩

/-- Noting one more key. -/
theorem add {seen : Seen κ} {keys : List κ} (h : seen.Records keys) (key : κ) :
    (seen.add key keys.length).Records (keys ++ [key]) := by
  have horder := eraseDups_concat keys key
  have hpositions : ∀ other, other ≠ key →
      (if other ∈ keys ++ [key] then some (positionsOf (keys ++ [key]) other).reverse else none) =
        seen.positions[other]? := by
    intro other hne
    have hne' : (key == other) = false := by simpa using Ne.symm hne
    rw [h.positions_eq, positionsOf_concat, hne']
    simp [hne]
  have hown : (positionsOf (keys ++ [key]) key).reverse =
      keys.length :: (positionsOf keys key).reverse := by
    rw [positionsOf_concat, beq_self_eq_true]
    simp
  have hfound := h.positions_eq key
  unfold Seen.add
  split
  · rename_i hnone
    rw [hnone] at hfound
    have hmem : key ∉ keys := fun hmem => by simp [hmem] at hfound
    refine ⟨?_, fun other => ?_⟩
    · rw [horder, if_neg hmem, List.reverse_cons, h.order_eq]
    · rw [Std.HashMap.getElem?_insert]
      by_cases hother : other = key
      · subst hother
        simp [hown, positionsOf_eq_nil_iff.mpr hmem]
      · have hne : (key == other) = false := by simpa using Ne.symm hother
        simp only [hne, hpositions other hother]
        rfl
  · rename_i before hsome
    rw [hsome] at hfound
    have hmem : key ∈ keys := by
      by_contra hmem
      simp [hmem] at hfound
    rw [if_pos hmem, Option.some.injEq] at hfound
    refine ⟨?_, fun other => ?_⟩
    · rw [horder, if_pos hmem, List.append_nil, h.order_eq]
    · rw [Std.HashMap.getElem?_insert]
      by_cases hother : other = key
      · subst hother
        simp [hown, hfound]
      · have hne : (key == other) = false := by simpa using Ne.symm hother
        simp only [hne, hpositions other hother]
        rfl

/-- Noting keys one after the other. -/
theorem addAll {seen : Seen κ} {keys : List κ} (h : seen.Records keys) (rest : List κ) :
    (seen.addAll keys.length rest).Records (keys ++ rest) := by
  induction rest generalizing seen keys with
  | nil => simpa [Seen.addAll] using h
  | cons key rest ih =>
    have hnext := ih (h.add key)
    rw [List.length_append, List.length_singleton, List.append_assoc] at hnext
    exact hnext

end Seen.Records

/-! ## Repetitions -/

/-- **The groups that are reported** are the positions of the keys that stand at two positions or
more, in the order of their first positions. -/
theorem repeated_eq (keys : List κ) :
    repeated keys = (keys.eraseDups.map (positionsOf keys)).filter fun group => 1 < group.length := by
  have hseen := Seen.Records.empty.addAll keys
  rw [List.nil_append, List.length_nil] at hseen
  unfold repeated
  dsimp only
  rw [hseen.order_eq, ← List.filterMap_eq_filter, List.filterMap_map]
  refine List.filterMap_congr fun key hkey => ?_
  have hgroup : (((Seen.mk [] ∅ : Seen κ).addAll 0 keys).positions.getD key []).reverse =
      positionsOf keys key := by
    rw [Std.HashMap.getD_eq_getD_getElem?, hseen.positions_eq,
      if_pos (List.mem_eraseDups.mp hkey), Option.getD_some, List.reverse_reverse]
  simp only [hgroup, Function.comp_apply, Option.guard, decide_eq_true_eq]

/-- Nothing is reported where all keys are different. -/
theorem repeated_eq_nil_iff {keys : List κ} : repeated keys = [] ↔ keys.Nodup := by
  rw [repeated_eq, List.filter_eq_nil_iff, List.nodup_iff_count_le_one]
  simp only [List.mem_map, decide_eq_true_eq, Nat.not_lt, forall_exists_index, and_imp,
    forall_apply_eq_imp_iff₂, List.mem_eraseDups, length_positionsOf]
  constructor
  · intro h key
    by_cases hkey : key ∈ keys
    · exact h key hkey
    · rw [List.count_eq_zero.mpr hkey]
      exact Nat.zero_le 1
  · exact fun h key _ => h key

/-- Keys are refused exactly where two of them are equal. -/
theorem checkDistinct_eq (keys : List κ) :
    (keys.Nodup → checkDistinct keys = .ok ()) ∧
      (¬ keys.Nodup → checkDistinct keys = .error (.duplicates (repeated keys))) := by
  unfold checkDistinct
  simp only [← repeated_eq_nil_iff, List.isEmpty_iff]
  exact ⟨fun h => if_pos h, fun h => if_neg h⟩

end Groups

end LeastSquares.Request
