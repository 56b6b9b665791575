/-
LeastSquares.Proofs.Grouping — the groups that a refusal of repeated keys names.

`Repetitions` says what the groups have to be: each of them all positions, ascending, of one key that
stands at two positions or more, no position with such a key left out, no position in two groups, and
the groups in the order of their first positions. The groups that are reported are of this kind
(`repetitions_repeated`), because keys are kept in the order of their first positions
(`pairwise_eraseDups`), and there is one such list of groups (`Repetitions.unique`). So a refusal is
told by the keys alone (`checkDistinct_eq_error_iff`).

The key of a pair forgets which of its members was named first and nothing else
(`unordered_eq_unordered_iff`), and pairs of written whole numbers have the keys of the numbers
(`mapM_unorderedKey`).
-/
import Mathlib.Data.Int.Order.Basic
import Mathlib.Data.Prod.Basic
import Mathlib.Order.Lattice
import LeastSquares.Proofs.Repetition
import LeastSquares.Proofs.Traversal

namespace LeastSquares

/-- Whole numbers are compared as they are. -/
theorem Binary.le_ofInt (a b : Int) : (ofInt a).le (ofInt b) = decide (a ≤ b) := by
  have hunits : ∀ i : Int, inUnits 0 (decide (i < 0)) i.natAbs 0 = i := by
    intro i
    have hone : (Nat.pow 2 (0 - 0 : Int).toNat : Int) = 1 := rfl
    simp only [inUnits, decide_eq_true_eq, hone, Int.mul_one]
    split <;> omega
  simp only [ofInt, le, min_self, hunits]

namespace Request

section Keys

variable {κ : Type}

/-! ## What the groups are -/

/-- The groups of positions at which some key stands, for every key that stands at two positions or
more. -/
structure Repetitions (keys : List κ) (groups : List (List Nat)) : Prop where
  disjoint : groups.Pairwise List.Disjoint
  ascending : ∀ group ∈ groups, group.Pairwise (· < ·)
  several : ∀ group ∈ groups, 1 < group.length
  of_key : ∀ group ∈ groups, ∃ key, ∀ i, i ∈ group ↔ keys[i]? = some key
  covers : ∀ i j key, i ≠ j → keys[i]? = some key → keys[j]? = some key → ∃ group ∈ groups, i ∈ group
  ordered : groups.Pairwise fun group later => ∀ i ∈ group.head?, ∀ j ∈ later.head?, i < j

/-- An ascending list starts with the smallest of its members. -/
theorem head_le {xs : List Nat} (ascending : xs.Pairwise (· < ·)) {i j : Nat} (hi : i ∈ xs.head?)
    (hj : j ∈ xs) : i ≤ j := by
  cases xs with
  | nil => simp at hj
  | cons x rest =>
    obtain rfl : x = i := by simpa using hi
    rcases List.mem_cons.mp hj with rfl | hj
    · exact Nat.le_refl _
    · exact Nat.le_of_lt (List.rel_of_pairwise_cons ascending hj)

theorem exists_head {xs : List Nat} (h : 1 < xs.length) : ∃ i, i ∈ xs.head? ∧ i ∈ xs := by
  cases xs with
  | nil => simp at h
  | cons x rest => exact ⟨x, by simp, by simp⟩

theorem exists_ne {xs : List Nat} (ascending : xs.Pairwise (· < ·)) (h : 1 < xs.length) {i : Nat} :
    ∃ j ∈ xs, i ≠ j := by
  match xs, ascending, h with
  | x :: y :: rest, ascending, _ =>
    have hlt : x < y := List.rel_of_pairwise_cons ascending List.mem_cons_self
    by_cases hi : i = x
    · exact ⟨y, by simp, by omega⟩
    · exact ⟨x, by simp, hi⟩

theorem one_lt_length {xs : List Nat} {i j : Nat} (hi : i ∈ xs) (hj : j ∈ xs) (hij : i ≠ j) :
    1 < xs.length := by
  match xs, hi, hj with
  | [x], hi, hj => simp_all
  | _ :: _ :: _, _, _ => simp

namespace Repetitions

variable {keys : List κ} {groups groups' : List (List Nat)}

theorem mem_of_mem (h : Repetitions keys groups) (h' : Repetitions keys groups') {group : List Nat}
    (hgroup : group ∈ groups) : group ∈ groups' := by
  obtain ⟨key, hkey⟩ := h.of_key group hgroup
  obtain ⟨i, -, hi⟩ := exists_head (h.several group hgroup)
  obtain ⟨j, hj, hij⟩ := exists_ne (i := i) (h.ascending group hgroup) (h.several group hgroup)
  obtain ⟨group', hgroup', hi'⟩ := h'.covers i j key hij ((hkey i).mp hi) ((hkey j).mp hj)
  obtain ⟨key', hkey'⟩ := h'.of_key group' hgroup'
  have hsame : key' = key := by
    have hi' := (hkey' i).mp hi'
    rw [(hkey i).mp hi] at hi'
    exact (Option.some.inj hi').symm
  have hequal : group = group' :=
    eq_of_pairwise (fun _ _ _ _ hlt => Nat.lt_asymm hlt) (h.ascending group hgroup)
      (h'.ascending group' hgroup') fun k => by rw [hkey, hkey', hsame]
  rw [hequal]
  exact hgroup'

/-- **There is one list of groups** for given keys. -/
theorem unique (h : Repetitions keys groups) (h' : Repetitions keys groups') : groups = groups' := by
  refine eq_of_pairwise ?_ h.ordered h'.ordered fun group => ⟨h.mem_of_mem h', h'.mem_of_mem h⟩
  intro group hgroup later hlater hlt hgt
  obtain ⟨i, hi, -⟩ := exists_head (h.several group hgroup)
  obtain ⟨j, hj, -⟩ := exists_head (h.several later hlater)
  exact Nat.lt_asymm (hlt i hi j hj) (hgt j hj i hi)

/-- Two positions share a group exactly when their keys are equal. -/
theorem share_iff (h : Repetitions keys groups) {i j : Nat} (hij : i ≠ j) (hi : i < keys.length) :
    (∃ group ∈ groups, i ∈ group ∧ j ∈ group) ↔ keys[i]? = keys[j]? := by
  constructor
  · rintro ⟨group, hgroup, hi, hj⟩
    obtain ⟨key, hkey⟩ := h.of_key group hgroup
    rw [(hkey i).mp hi, (hkey j).mp hj]
  · intro hequal
    have hi : keys[i]? = some keys[i] := List.getElem?_eq_getElem hi
    obtain ⟨group, hgroup, hmem⟩ := h.covers i j _ hij hi (hequal ▸ hi)
    obtain ⟨key, hkey⟩ := h.of_key group hgroup
    exact ⟨group, hgroup, hmem, (hkey j).mpr (hequal ▸ (hkey i).mp hmem)⟩

end Repetitions

variable [BEq κ]

/-! ## The positions of keys -/

theorem pairwise_positionsOf (keys : List κ) (key : κ) : (positionsOf keys key).Pairwise (· < ·) :=
  List.pairwise_lt_range.filter _

variable [LawfulBEq κ]

theorem lt_length_of_mem_positionsOf {keys : List κ} {key : κ} {i : Nat}
    (h : i ∈ positionsOf keys key) : i < keys.length :=
  (List.getElem?_eq_some_iff.mp (mem_positionsOf.mp h)).1

/-- Keys without their repetitions stand in the order of their first positions. -/
theorem pairwise_eraseDups (keys : List κ) :
    keys.eraseDups.Pairwise fun a b => ∃ i ∈ positionsOf keys a, ∀ j ∈ positionsOf keys b, i < j := by
  induction keys using List.reverseRecOn with
  | nil => exact .nil
  | append_singleton keys last ih =>
    rw [eraseDups_concat, List.pairwise_append]
    refine ⟨ih.imp ?_, by split <;> simp, ?_⟩
    · -- the position that is added is behind all others
      rintro a b ⟨i, hi, hlt⟩
      refine ⟨i, by simp [positionsOf_concat, hi], fun j hj => ?_⟩
      rw [positionsOf_concat, List.mem_append] at hj
      rcases hj with hj | hj
      · exact hlt j hj
      · have hi := lt_length_of_mem_positionsOf hi
        split at hj <;> simp at hj
        omega
    · intro a ha b hb
      split at hb
      · simp at hb
      · rename_i hnew
        obtain rfl := List.mem_singleton.mp hb
        obtain ⟨i, hi⟩ := List.mem_iff_getElem?.mp (List.mem_eraseDups.mp ha)
        have hi := mem_positionsOf.mpr hi
        have hlt := lt_length_of_mem_positionsOf hi
        refine ⟨i, by simp [positionsOf_concat, hi], fun j hj => ?_⟩
        simp only [positionsOf_concat, positionsOf_eq_nil_iff.mpr hnew, beq_self_eq_true, if_true,
          List.nil_append, List.mem_singleton] at hj
        omega

/-! ## What is reported -/

variable [Hashable κ]

/-- **The groups that are reported** are the repetitions of the keys. -/
theorem repetitions_repeated (keys : List κ) : Repetitions keys (repeated keys) := by
  have hgroup : ∀ group ∈ repeated keys,
      (∃ key, positionsOf keys key = group) ∧ 1 < group.length := by
    intro group h
    rw [repeated_eq, List.mem_filter, List.mem_map, decide_eq_true_eq] at h
    obtain ⟨⟨key, -, hkey⟩, hlength⟩ := h
    exact ⟨⟨key, hkey⟩, hlength⟩
  refine ⟨?_, ?_, fun group h => (hgroup group h).2, ?_, ?_, ?_⟩
  · rw [repeated_eq]
    refine (List.pairwise_map.mpr ((pairwise_eraseDups keys).imp ?_)).filter _
    rintro a b ⟨i, hi, hlt⟩ k hka hkb
    have hab : a = b :=
      Option.some.inj ((mem_positionsOf.mp hka).symm.trans (mem_positionsOf.mp hkb))
    exact Nat.lt_irrefl i (hlt i (hab ▸ hi))
  · intro group h
    obtain ⟨⟨key, rfl⟩, -⟩ := hgroup group h
    exact pairwise_positionsOf keys key
  · intro group h
    obtain ⟨⟨key, rfl⟩, -⟩ := hgroup group h
    exact ⟨key, fun i => mem_positionsOf⟩
  · intro i j key hij hi hj
    have hmem : key ∈ keys := List.mem_of_getElem? hi
    have hi := mem_positionsOf.mpr hi
    have hlength := one_lt_length hi (mem_positionsOf.mpr hj) hij
    refine ⟨positionsOf keys key, ?_, hi⟩
    rw [repeated_eq, List.mem_filter, List.mem_map, decide_eq_true_eq]
    exact ⟨⟨key, List.mem_eraseDups.mpr hmem, rfl⟩, hlength⟩
  · rw [repeated_eq]
    refine (List.pairwise_map.mpr ((pairwise_eraseDups keys).imp ?_)).filter _
    rintro a b ⟨i, hi, hlt⟩ x hx y hy
    exact Nat.lt_of_le_of_lt (head_le (pairwise_positionsOf keys a) hx hi)
      (hlt y (List.mem_of_mem_head? hy))

/-- A refusal is for repetitions. -/
theorem duplicates_of_error {keys : List κ} {e : Fault} (h : checkDistinct keys = .error e) :
    ∃ groups, e = .duplicates groups := by
  by_cases hnodup : keys.Nodup
  · rw [(checkDistinct_eq keys).1 hnodup] at h
    cases h
  · rw [(checkDistinct_eq keys).2 hnodup] at h
    exact ⟨_, (Except.error.inj h).symm⟩

/-- **A refusal** names the repetitions of the keys, and there are some. -/
theorem checkDistinct_eq_error_iff {keys : List κ} {groups : List (List Nat)} :
    checkDistinct keys = .error (.duplicates groups) ↔ groups ≠ [] ∧ Repetitions keys groups := by
  have hrepeated := repetitions_repeated keys
  unfold checkDistinct
  simp only [List.isEmpty_iff]
  split
  · rename_i hnil
    simp only [reduceCtorEq, ne_eq, false_iff, not_and]
    exact fun hgroups h => hgroups (h.unique hrepeated ▸ hnil)
  · rename_i hsome
    simp only [Except.error.injEq, Fault.duplicates.injEq]
    constructor
    · rintro rfl
      exact ⟨hsome, hrepeated⟩
    · exact fun h => hrepeated.unique h.2

/-- Are two positions in one of the groups that a refusal names? -/
def NamedTogether (keys : List κ) (i j : Nat) : Prop :=
  ∃ groups, checkDistinct keys = .error (.duplicates groups) ∧ ∃ group ∈ groups, i ∈ group ∧ j ∈ group

/-- Two positions are named together exactly when their keys are equal. -/
theorem namedTogether_iff {keys : List κ} {i j : Nat} (hij : i ≠ j) (hi : i < keys.length) :
    NamedTogether keys i j ↔ keys[i]? = keys[j]? := by
  unfold NamedTogether
  simp only [checkDistinct_eq_error_iff]
  constructor
  · rintro ⟨groups, ⟨-, hgroups⟩, hshare⟩
    exact (hgroups.share_iff hij hi).mp hshare
  · intro hequal
    have hrepeated := repetitions_repeated keys
    obtain ⟨group, hgroup, hmem⟩ := (hrepeated.share_iff hij hi).mpr hequal
    exact ⟨repeated keys, ⟨List.ne_nil_of_mem hgroup, hrepeated⟩, group, hgroup, hmem⟩

/-- Keys are refused exactly where two positions have the same. -/
theorem refused_iff {keys : List κ} : (∃ e, checkDistinct keys = .error e) ↔
    ∃ i j, ∃ (hi : i < keys.length) (hj : j < keys.length), i ≠ j ∧ keys[i] = keys[j] := by
  have hnodup : (∃ e, checkDistinct keys = .error e) ↔ ¬ keys.Nodup := by
    constructor
    · rintro ⟨e, he⟩ h
      rw [(checkDistinct_eq keys).1 h] at he
      cases he
    · exact fun h => ⟨_, (checkDistinct_eq keys).2 h⟩
  rw [hnodup, List.nodup_iff_injective_get, Function.not_injective_iff]
  simp only [Fin.exists_iff, List.get_eq_getElem, ne_eq, Fin.mk.injEq]
  grind

end Keys

/-! ## Pairs -/

theorem unordered_eq_or_eq_swap {γ : Type} [LE γ] [DecidableLE γ] (pair : γ × γ) :
    unordered pair = pair ∨ unordered pair = pair.swap := by
  unfold unordered
  split
  · exact Or.inl rfl
  · exact Or.inr rfl

section Order

variable {γ : Type} [LinearOrder γ]

theorem unordered_swap (pair : γ × γ) : unordered pair.swap = unordered pair := by
  obtain ⟨a, b⟩ := pair
  rcases lt_trichotomy a b with hlt | rfl | hgt
  · simp [unordered, le_of_lt hlt, not_le_of_gt hlt]
  · rfl
  · simp [unordered, le_of_lt hgt, not_le_of_gt hgt]

/-- **The key of a pair** is that of another pair exactly when the two are equal up to the order of
their members. -/
theorem unordered_eq_unordered_iff {x y : γ × γ} :
    unordered x = unordered y ↔ x = y ∨ x = y.swap := by
  constructor
  · intro h
    rcases unordered_eq_or_eq_swap x with hx | hx <;>
      rcases unordered_eq_or_eq_swap y with hy | hy <;> rw [hx, hy] at h
    · exact Or.inl h
    · exact Or.inr h
    · exact Or.inr (Prod.swap_eq_iff_eq_swap.mp h)
    · exact Or.inl (Prod.swap_injective h)
  · rintro (rfl | rfl)
    · rfl
    · exact unordered_swap y

end Order

/-- A pair of written whole numbers has the key of the pair. -/
theorem unorderedKey_integers (pair : Int × Int) :
    unorderedKey (.list [.integer pair.1, .integer pair.2]) =
      .ok ((unordered pair).map Atom.Key.whole Atom.Key.whole) := by
  obtain ⟨a, b⟩ := pair
  simp only [unorderedKey, Item.members?, Atom.le?, Atom.number?, Binary.le_ofInt, unordered]
  by_cases hab : a ≤ b <;> simp [hab, Atom.key]

theorem mapM_unorderedKey (pairs : List (Int × Int)) :
    (pairs.map fun pair => Item.list [.integer pair.1, .integer pair.2]).mapM unorderedKey =
      .ok (pairs.map fun pair => (unordered pair).map Atom.Key.whole Atom.Key.whole) := by
  induction pairs with
  | nil => rfl
  | cons pair rest ih =>
    rw [List.map_cons, List.mapM_cons, unorderedKey_integers, ih]
    rfl

/-- Keys are refused exactly where they are equal at two positions, and then the refusal names their
repetitions. With pairs told apart by `unordered`, and so with pairs of written whole numbers, two
positions are in one group exactly when the pairs are equal up to the order of their members. -/
theorem checkDistinct_exact {β κ γ : Type} [BEq κ] [LawfulBEq κ] [Hashable κ] [LinearOrder γ]
    [Hashable γ] (key : β → κ) (items : List β) :
    ((∃ e, checkDistinct (items.map key) = .error e) ↔
        ∃ i j, ∃ (hi : i < items.length) (hj : j < items.length),
          i ≠ j ∧ key items[i] = key items[j]) ∧
      (∀ e, checkDistinct (items.map key) = .error e ↔
        ∃ groups, e = .duplicates groups ∧ groups ≠ [] ∧ Repetitions (items.map key) groups) ∧
      (∀ (pairs : List (γ × γ)) (i j : Nat) (hi : i < pairs.length) (hj : j < pairs.length), i ≠ j →
        (NamedTogether (pairs.map unordered) i j ↔
          pairs[i] = pairs[j] ∨ pairs[i] = pairs[j].swap)) ∧
      ∀ pairs : List (Int × Int), ∃ keys,
        (pairs.map fun pair => Item.list [.integer pair.1, .integer pair.2]).mapM unorderedKey =
            .ok keys ∧ keys.length = pairs.length ∧
          ∀ (i j : Nat) (hi : i < pairs.length) (hj : j < pairs.length), i ≠ j →
            (NamedTogether keys i j ↔ pairs[i] = pairs[j] ∨ pairs[i] = pairs[j].swap) := by
  refine ⟨?_, fun e => ?_, fun pairs i j hi hj hij => ?_, fun pairs => ?_⟩
  · simp [refused_iff]
  · constructor
    · intro h
      obtain ⟨groups, rfl⟩ := duplicates_of_error h
      exact ⟨groups, rfl, checkDistinct_eq_error_iff.mp h⟩
    · rintro ⟨groups, rfl, h⟩
      exact checkDistinct_eq_error_iff.mpr h
  · rw [namedTogether_iff hij (by simpa using hi)]
    simp [hi, hj, unordered_eq_unordered_iff]
  · refine ⟨_, mapM_unorderedKey pairs, by simp, fun i j hi hj hij => ?_⟩
    have hinjective : Function.Injective (Prod.map Atom.Key.whole Atom.Key.whole) :=
      Prod.map_injective.mpr ⟨fun _ _ h => Atom.Key.whole.inj h, fun _ _ h => Atom.Key.whole.inj h⟩
    rw [namedTogether_iff hij (by simpa using hi)]
    simp [hi, hj, hinjective.eq_iff, unordered_eq_unordered_iff]

/-- Of six numbers told apart by their last digits, two repeat; and of three pairs the first is the
last one the other way round. -/
theorem checkDistinct_exact_digits :
    checkDistinct ([13, 5, 3, 15, 25, 7].map fun n : Nat => n % 10) =
        .error (.duplicates [[0, 2], [1, 3, 4]]) ∧
      NamedTogether ([(1, 2), (3, 3), (2, 1)].map (unordered : Int × Int → Int × Int)) 0 2 := by
  obtain ⟨-, hrefusal, hpairs, -⟩ :=
    @checkDistinct_exact Nat Nat Int _ _ _ _ _ (fun n => n % 10) [13, 5, 3, 15, 25, 7]
  have hgroups := repetitions_repeated ([13, 5, 3, 15, 25, 7].map fun n : Nat => n % 10)
  have hrepeated : repeated ([13, 5, 3, 15, 25, 7].map fun n : Nat => n % 10) =
      [[0, 2], [1, 3, 4]] := by
    rw [repeated_eq]
    decide
  rw [hrepeated] at hgroups
  exact ⟨(hrefusal _).mpr ⟨_, rfl, by simp, hgroups⟩,
    (hpairs [(1, 2), (3, 3), (2, 1)] 0 2 (by simp) (by simp) (by simp)).mpr (Or.inr rfl)⟩

end Request

end LeastSquares
