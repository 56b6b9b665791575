/-
LeastSquares.Proofs.Coordinates — holding some coordinates parameterises the others.

The constants of a subset manifold are whole numbers by the time they are compared: a number has lost
its fraction in the direction of zero (`Atom.whole_eq_ok_iff`, with `Binary.truncate?_eq` about the
bits), and a manifold is made exactly when what is left are different coordinates that exist.

The size of the tangent space is counted from the held coordinates, but all that moves goes through
the list of the free ones. That the two agree (`Subset.length_free`) needs both checks of the
constants. After that everything is read off position by position: tangent entry `j` belongs to
coordinate `free[j]` in a step (`getD_moved`), in a difference (`getD_differences`) and in the
Jacobian (`get_plusJacobian`), and the laws of `Manifold.Parameterizes` follow from these three.
-/
import Mathlib.Algebra.Order.Field.Rat
import Mathlib.Data.Rat.Floor
import LeastSquares.Manifold.Subset
import LeastSquares.Proofs.Normal
import LeastSquares.Proofs.Partition

namespace LeastSquares

/-! ## Without the fraction -/

/-- The whole number next to a rational one in the direction of zero. -/
def towardZero (q : ℚ) : Int := if 0 ≤ q then ⌊q⌋ else ⌈q⌉

theorem towardZero_neg (q : ℚ) : towardZero (-q) = -towardZero q := by
  unfold towardZero
  rcases lt_trichotomy q 0 with hneg | rfl | hpos
  · rw [if_pos (by linarith), if_neg (by linarith), Int.floor_neg]
  · simp
  · rw [if_neg (by linarith), if_pos (by linarith), Int.ceil_neg]

theorem towardZero_intCast (i : Int) : towardZero i = i := by simp [towardZero]

namespace Binary

/-- The exact value of a finite number. -/
def value? : Binary → Option ℚ
  | .finite negative mantissa exponent _ =>
    let size : ℚ := mantissa * 2 ^ exponent
    some (if negative then -size else size)
  | _ => none

theorem wholePart_eq (mantissa : Nat) (exponent : Int) :
    (wholePart mantissa exponent : Int) = towardZero (mantissa * 2 ^ exponent) := by
  have hnonneg : (0 : ℚ) ≤ mantissa * 2 ^ exponent :=
    mul_nonneg (Nat.cast_nonneg _) (zpow_nonneg (by norm_num) _)
  rw [towardZero, if_pos hnonneg]
  cases exponent with
  | ofNat e =>
    have hwhole : ((mantissa : ℚ) * 2 ^ (Int.ofNat e)) = ((mantissa * 2 ^ e : Nat) : Int) := by
      push_cast
      rfl
    rw [hwhole, Int.floor_intCast]
    rfl
  | negSucc e =>
    have hquotient : ((mantissa : ℚ) * 2 ^ (Int.negSucc e)) =
        (mantissa : ℚ) / (2 ^ (e + 1) : Nat) := by
      rw [zpow_negSucc, div_eq_mul_inv]
      push_cast
      rfl
    rw [hquotient, Rat.floor_natCast_div_natCast]
    rfl

/-- Dropping the fraction leaves the whole number in the direction of zero. -/
theorem truncate?_eq (b : Binary) : b.truncate? = b.value?.map towardZero := by
  cases b with
  | nan => rfl
  | infinite negative => rfl
  | finite negative mantissa exponent lowGap =>
    simp only [truncate?, value?, wholePart_eq, Option.map_some]
    cases negative <;> simp [towardZero_neg]

theorem value?_ofInt (i : Int) : (ofInt i).value? = some (i : ℚ) := by
  have hsize : ((i.natAbs : Int) : ℚ) = (i.natAbs : ℚ) := Int.cast_natCast _
  simp only [ofInt, value?, zpow_zero, mul_one, decide_eq_true_eq, Option.some.injEq, ← hsize]
  split
  · exact_mod_cast congrArg (Int.cast : Int → ℚ) (show -(i.natAbs : Int) = i by omega)
  · exact_mod_cast congrArg (Int.cast : Int → ℚ) (show (i.natAbs : Int) = i by omega)

end Binary

namespace Atom

/-- The exact value of a finite number. -/
def value? (a : Atom) : Option ℚ := a.number?.bind Binary.value?

/-- A number loses its fraction in the direction of zero, and one that is not finite is refused. -/
theorem whole_eq_ok_iff {a : Atom} (hnumber : a.number?.isSome = true) {i : Int} :
    a.whole = .ok i ↔ a.value?.map towardZero = some i := by
  have hinteger : ∀ n : Int, (integer n).whole = .ok i ↔
      (integer n).value?.map towardZero = some i := by
    intro n
    simp [whole, value?, number?, Binary.value?_ofInt, towardZero_intCast]
  cases a with
  | null => cases hnumber
  | text s => cases hnumber
  | truth b => exact hinteger _
  | integer n => exact hinteger n
  | float x =>
    simp only [value?, number?, Option.bind_some, ← Binary.truncate?_eq]
    unfold whole
    dsimp only
    split
    · rename_i hinfinite
      simp [hinfinite, Binary.truncate?]
    · split
      · rename_i n htruncated
        simp [htruncated]
      · rename_i htruncated
        simp [htruncated]

theorem whole_of_value? {a : Atom} {q : ℚ} (h : a.value? = some q) :
    a.whole = .ok (towardZero q) := by
  have hnumber : a.number?.isSome = true := by
    obtain ⟨b, hb, -⟩ := Option.bind_eq_some_iff.mp h
    rw [hb]
    rfl
  rw [whole_eq_ok_iff hnumber, h, Option.map_some]

theorem mapM_whole_of_mapM_value? {constants : List Atom} {values : List ℚ}
    (h : constants.mapM value? = some values) :
    constants.mapM whole = .ok (values.map towardZero) := by
  rw [mapM_eq_some_iff] at h
  rw [mapM_eq_ok_iff]
  induction constants generalizing values with
  | nil =>
    obtain rfl : values = [] := by simpa using h
    rfl
  | cons a rest ih =>
    cases values with
    | nil => simp at h
    | cons q values =>
      obtain ⟨ha, hrest⟩ := List.cons.inj h
      rw [List.map_cons, whole_of_value? ha, ih hrest]
      rfl

end Atom

/-! ## Which coordinates move -/

/-- Columns of numbers of one size are equal when their entries are. -/
theorem eq_of_getD {α : Type} [Zero α] {x y : Array α} (hsize : x.size = y.size)
    (h : ∀ i, i < x.size → x.getD i 0 = y.getD i 0) : x = y := by
  refine Array.ext hsize fun i hx hy => ?_
  have hentry := h i hx
  rw [Array.getD_eq_getD_getElem?, Array.getD_eq_getD_getElem?, Array.getElem?_eq_getElem hx,
    Array.getElem?_eq_getElem hy] at hentry
  exact hentry

namespace Subset

section Making

variable {size : Int} {held : List Int}

/-- Coordinates that are held are different and exist. -/
theorem of_make_eq_ok {m : Subset} (h : make size held = .ok m) :
    (held.Nodup ∧ ∀ i ∈ held, 0 ≤ i ∧ i < size) ∧
      m.size = size ∧ ∀ i : Nat, i ∈ m.constants ↔ (i : Int) ∈ held := by
  have hperm : (held.mergeSort fun a b => a ≤ b).Perm held := List.mergeSort_perm _ _
  unfold make at h
  dsimp only at h
  split at h
  · rename_i hnodup
    split at h
    · rename_i hinside
      have hinside : ∀ i ∈ held, 0 ≤ i ∧ i < size := fun i hi => hinside i (hperm.mem_iff.mpr hi)
      obtain rfl := Except.ok.inj h
      refine ⟨⟨hperm.nodup_iff.mp hnodup, hinside⟩, rfl, fun i => ?_⟩
      simp only [List.mem_map, hperm.mem_iff]
      constructor
      · rintro ⟨a, ha, rfl⟩
        rwa [Int.toNat_of_nonneg (hinside a ha).1]
      · exact fun hi => ⟨i, hi, Int.toNat_natCast i⟩
    · cases h
  · cases h

theorem exists_make_eq_ok (hnodup : held.Nodup) (hinside : ∀ i ∈ held, 0 ≤ i ∧ i < size) :
    ∃ m, make size held = .ok m := by
  have hperm : (held.mergeSort fun a b => a ≤ b).Perm held := List.mergeSort_perm _ _
  unfold make
  dsimp only
  rw [dif_pos (hperm.nodup_iff.mpr hnodup),
    dif_pos fun i hi => hinside i (hperm.mem_iff.mp hi)]
  exact ⟨_, rfl⟩

end Making

section Free

variable (m : Subset)

theorem mem_free {m : Subset} {i : Nat} : i ∈ m.free ↔ i < m.size.toNat ∧ i ∉ m.constants := by
  simp [free]

theorem lt_of_mem_free {m : Subset} {n i : Nat} (hn : m.size = n) (h : i ∈ m.free) : i < n := by
  have hlt := (mem_free.mp h).1
  omega

theorem free_eq_filter {m : Subset} {n : Nat} {held : List Int} (hsize : m.size = n)
    (hheld : ∀ i : Nat, i ∈ m.constants ↔ (i : Int) ∈ held) :
    m.free = (List.range n).filter fun i : Nat => (i : Int) ∉ held := by
  unfold free
  rw [hsize, Int.toNat_natCast]
  refine List.filter_congr fun i _ => ?_
  simp [hheld]

theorem nodup_free : m.free.Nodup := List.nodup_range.filter _

/-- **The tangent space** has a direction for each free coordinate. -/
theorem length_free (hsize : 0 ≤ m.size) : (m.free.length : Int) = m.tangentSize := by
  -- the held coordinates are counted once each and none of them is out of range
  have hheld : ((List.range m.size.toNat).filter m.constants.contains).Perm m.constants := by
    refine (List.perm_ext_iff_of_nodup (List.nodup_range.filter _) m.nodup).mpr fun i => ?_
    have hlt := m.lt_size i
    simp only [List.mem_filter, List.mem_range, List.contains_iff_mem, and_iff_right_iff_imp]
    intro hi
    have := hlt hi
    omega
  have hsplit := List.length_eq_length_filter_add (l := List.range m.size.toNat) m.constants.contains
  have hlength := hheld.length_eq
  rw [List.length_range] at hsplit
  unfold tangentSize free
  omega

end Free

/-! ## Moving them -/

section Moves

variable {R : Type} [CommRing R]

@[simp] theorem size_addAt (delta x : Array R) (k : Nat) (is : List Nat) :
    (addAt delta x k is).size = x.size := by
  induction is generalizing x k with
  | nil => rfl
  | cons i is ih => rw [addAt, ih, Array.size_setIfInBounds]

/-- Coordinates that are not met stay where they are. -/
theorem getD_addAt_of_not_mem (delta x : Array R) {k : Nat} {is : List Nat} {i : Nat} (h : i ∉ is) :
    (addAt delta x k is).getD i 0 = x.getD i 0 := by
  induction is generalizing x k with
  | nil => rfl
  | cons j is ih =>
    obtain ⟨hij, hrest⟩ := not_or.mp (List.mem_cons.not.mp h)
    rw [addAt, ih _ hrest, getD_setIfInBounds, if_neg fun hboth => hij hboth.1]

/-- The coordinate at a position moves by the entry at that position. -/
theorem getD_addAt_of_getElem? (delta x : Array R) {k : Nat} {is : List Nat} (nodup : is.Nodup)
    (hx : ∀ i ∈ is, i < x.size) (hdelta : k + is.length ≤ delta.size) {i j : Nat}
    (h : is[j]? = some i) :
    (addAt delta x k is).getD i 0 = x.getD i 0 + delta.getD (k + j) 0 := by
  induction is generalizing x k j with
  | nil => simp at h
  | cons first is ih =>
    obtain ⟨hfirst, hrest⟩ := List.nodup_cons.mp nodup
    have hmoved : ∀ i, (x.setIfInBounds first
        (x.getD first 0 + delta.getD (Stretch.index delta.size k) 0)).getD i 0 =
          if i = first then x.getD i 0 + delta.getD k 0 else x.getD i 0 := by
      intro i
      rw [List.length_cons] at hdelta
      rw [getD_setIfInBounds, Stretch.index_of_lt (by omega)]
      by_cases hi : i = first
      · subst hi
        rw [if_pos ⟨rfl, hx i List.mem_cons_self⟩, if_pos rfl]
      · rw [if_neg fun hboth => hi hboth.1, if_neg hi]
    rw [addAt]
    cases j with
    | zero =>
      -- no later coordinate is this one again
      obtain rfl : first = i := by simpa using h
      rw [getD_addAt_of_not_mem delta _ hfirst, hmoved, if_pos rfl, Nat.add_zero]
    | succ j =>
      have h : is[j]? = some i := by simpa using h
      have hne : i ≠ first := fun heq => hfirst (heq ▸ List.mem_of_getElem? h)
      rw [ih _ hrest (fun i hi => by simpa using hx i (List.mem_cons_of_mem _ hi))
        (by rw [List.length_cons] at hdelta; omega) h, hmoved, if_neg hne]
      congr 2
      omega

variable (m : Subset)

/-- The coordinates moved by the entries of `delta`. -/
def moved (x delta : Array R) : Array R := addAt delta x 0 m.free

/-- How far apart two points are in the free coordinates. -/
def differences (y x : Array R) : Array R :=
  (m.free.map fun i => y.getD i 0 - x.getD i 0).toArray

@[simp] theorem size_moved (x delta : Array R) : (m.moved x delta).size = x.size := size_addAt _ _ _ _

@[simp] theorem size_differences (y x : Array R) : (m.differences y x).size = m.free.length := by
  simp [differences]

variable {m} {x y delta : Array R} {i j : Nat}

theorem plus_eq (hx : m.size = x.size) (hdelta : delta.size = m.free.length) :
    m.plus x delta = .ok (m.moved x delta) := by
  have hall : m.free.all fun i => i < x.size := by
    simpa using fun i hi => lt_of_mem_free hx hi
  unfold plus
  rw [if_pos hall, if_pos (by simp [Stretch.fits, hdelta])]
  rfl

theorem minus_eq (hy : m.size = y.size) (hx : m.size = x.size) :
    m.minus y x = .ok (m.differences y x) := by
  have hall : m.free.all fun i => i < y.size && i < x.size := by
    simpa using fun i hi => ⟨lt_of_mem_free hy hi, lt_of_mem_free hx hi⟩
  exact if_pos hall

theorem getD_moved_of_not_mem (h : i ∉ m.free) : (m.moved x delta).getD i 0 = x.getD i 0 :=
  getD_addAt_of_not_mem delta x h

theorem getD_moved (hx : m.size = x.size) (hdelta : delta.size = m.free.length)
    (h : m.free[j]? = some i) : (m.moved x delta).getD i 0 = x.getD i 0 + delta.getD j 0 := by
  have hmoved := getD_addAt_of_getElem? delta x (k := 0) m.nodup_free
    (fun i hi => lt_of_mem_free hx hi) (by omega) h
  rwa [Nat.zero_add] at hmoved

theorem getD_differences (h : m.free[j]? = some i) :
    (m.differences y x).getD j 0 = y.getD i 0 - x.getD i 0 := by
  simp [differences, Array.getD_eq_getD_getElem?, h]

/-- **There and back.** The difference to where a step leads is the step. -/
theorem differences_moved (hx : m.size = x.size) (hdelta : delta.size = m.free.length) :
    m.differences (m.moved x delta) x = delta := by
  refine eq_of_getD (by rw [size_differences, hdelta]) fun j hj => ?_
  have hj : j < m.free.length := by simpa using hj
  obtain ⟨i, hi⟩ : ∃ i, m.free[j]? = some i := ⟨_, List.getElem?_eq_getElem hj⟩
  rw [getD_differences hi, getD_moved hx hdelta hi, add_sub_cancel_left]

/-- **Where a difference leads**: to the one point in the free coordinates, and nowhere in others. -/
theorem getD_moved_differences (hx : m.size = x.size) (i : Nat) :
    (m.moved x (m.differences y x)).getD i 0 = if i ∈ m.free then y.getD i 0 else x.getD i 0 := by
  split
  · rename_i h
    obtain ⟨j, hj⟩ := List.mem_iff_getElem?.mp h
    rw [getD_moved hx (m.size_differences y x) hj, getD_differences hj, add_sub_cancel]
  · rename_i h
    exact getD_moved_of_not_mem h

/-! ## The Jacobian -/

section Jacobian

variable (hsize : 0 ≤ m.size)

include hsize

theorem cols_plusJacobian : (m.plusJacobian : Dense R).cols = m.free.length := by
  have hwidth := m.length_free hsize
  show m.tangentSize.toNat = _
  omega

theorem get_plusJacobian (hj : j < m.free.length) :
    (m.plusJacobian : Dense R).get i j = if m.free[j]? = some i then 1 else 0 := by
  have hwidth := m.length_free hsize
  unfold plusJacobian
  rw [Dense.get_ofFn]
  by_cases hfree : m.free[j]? = some i
  · have hlt := (mem_free.mp (List.mem_of_getElem? hfree)).1
    rw [if_pos ⟨hlt, by omega⟩]
    simp [hfree]
  · simp [hfree]

/-- Along the Jacobian a free coordinate moves by its own entry. -/
theorem getD_mulVec_plusJacobian (h : m.free[j]? = some i) :
    ((m.plusJacobian : Dense R).mulVec delta).getD i 0 = delta.getD j 0 := by
  have hj := (List.getElem?_eq_some_iff.mp h).1
  rw [Dense.getD_mulVec _ _ (mem_free.mp (List.mem_of_getElem? h)).1, cols_plusJacobian hsize,
    sumTo_eq_sum, Finset.sum_eq_single j]
  · rw [get_plusJacobian hsize hj, if_pos h, one_mul]
  · intro k hk hkj
    have hk := Finset.mem_range.mp hk
    have hne : m.free[k]? ≠ some i := fun hk' =>
      hkj ((List.getElem?_inj hk m.nodup_free).mp (hk'.trans h.symm))
    rw [get_plusJacobian hsize hk, if_neg hne, zero_mul]
  · exact fun hmem => absurd (Finset.mem_range.mpr hj) hmem

/-- Other coordinates do not move. -/
theorem getD_mulVec_plusJacobian_of_not_mem (hi : i < m.size.toNat) (h : i ∉ m.free) :
    ((m.plusJacobian : Dense R).mulVec delta).getD i 0 = 0 := by
  rw [Dense.getD_mulVec _ _ hi, cols_plusJacobian hsize, sumTo_eq_sum]
  refine Finset.sum_eq_zero fun k hk => ?_
  have hne : m.free[k]? ≠ some i := fun hk' => h (List.mem_of_getElem? hk')
  rw [get_plusJacobian hsize (Finset.mem_range.mp hk), if_neg hne, zero_mul]

/-- **A step is linear**: it leads along the Jacobian. -/
theorem getD_moved_eq_add (hx : m.size = x.size) (hdelta : delta.size = m.free.length)
    (hi : i < x.size) : (m.moved x delta).getD i 0 =
      x.getD i 0 + ((m.plusJacobian : Dense R).mulVec delta).getD i 0 := by
  by_cases h : i ∈ m.free
  · obtain ⟨j, hj⟩ := List.mem_iff_getElem?.mp h
    rw [getD_moved hx hdelta hj, getD_mulVec_plusJacobian hsize hj]
  · rw [getD_moved_of_not_mem h, getD_mulVec_plusJacobian_of_not_mem hsize (by omega) h, add_zero]

/-- **The columns of the Jacobian** are perpendicular and of length one. -/
theorem transpose_mul_plusJacobian :
    (m.plusJacobian : Dense R).transpose.mul m.plusJacobian = Dense.identity m.free.length := by
  have hcols := cols_plusJacobian (R := R) hsize
  rw [← Dense.gram_eq_mul]
  refine Dense.ext_get hcols hcols fun a b ha hb => ?_
  have ha' : a < m.free.length := hcols ▸ ha
  have hb' : b < m.free.length := hcols ▸ hb
  obtain ⟨i, hi⟩ : ∃ i, m.free[a]? = some i := ⟨_, List.getElem?_eq_getElem ha'⟩
  have hlt := (mem_free.mp (List.mem_of_getElem? hi)).1
  rw [Dense.get_identity ha' hb', Dense.get_gram _ ha hb, sumTo_eq_sum, Finset.sum_eq_single i]
  · have hequal : m.free[b]? = some i ↔ a = b := by
      rw [← hi, eq_comm]
      exact List.getElem?_inj ha' m.nodup_free
    rw [get_plusJacobian hsize ha', get_plusJacobian hsize hb', if_pos hi, one_mul]
    exact if_congr hequal rfl rfl
  · intro k _ hki
    have hne : m.free[a]? ≠ some k := fun hk => hki (Option.some.inj (hk.symm.trans hi))
    rw [get_plusJacobian hsize ha', if_neg hne, zero_mul]
  · exact fun hmem => absurd (Finset.mem_range.mpr hlt) hmem

end Jacobian

end Moves

end Subset

/-! ## The manifold -/

namespace Manifold

variable {R : Type} [CommRing R]

/-- What makes a manifold a parameterisation of `n` coordinates of which some are held: each of the
others has a tangent direction of its own. -/
structure Parameterizes (n : Nat) (held : List Int) (m : Manifold R) : Prop where
  ambientSize_eq : m.ambientSize = n
  tangentSize_eq :
    m.tangentSize = ((List.range n).filter fun i : Nat => (i : Int) ∉ held).length
  jacobian : ∀ x : Array R, x.size = n → ∃ J, m.plusJacobian x = .ok J ∧ J.rows = n ∧
    (J.cols : Int) = m.tangentSize ∧ J.transpose.mul J = Dense.identity J.cols
  step : ∀ (x delta : Array R) (J : Dense R), x.size = n → (delta.size : Int) = m.tangentSize →
    m.plusJacobian x = .ok J → ∃ p : Array R, m.plus x delta = .ok (.ofVector p) ∧ p.size = n ∧
      (∀ i, i < n → p.getD i 0 = x.getD i 0 + (J.mulVec delta).getD i 0) ∧
      (∀ i, i < n → (i : Int) ∈ held → p.getD i 0 = x.getD i 0) ∧
      m.minus p x = .ok (.ofVector delta)
  difference : ∀ x y : Array R, x.size = n → y.size = n → ∃ delta z : Array R,
    m.minus y x = .ok (.ofVector delta) ∧ (delta.size : Int) = m.tangentSize ∧
      m.plus x delta = .ok (.ofVector z) ∧ z.size = n ∧
      (∀ i, i < n → z.getD i 0 = if (i : Int) ∈ held then x.getD i 0 else y.getD i 0) ∧
      (z = y ↔ ∀ i, i < n → (i : Int) ∈ held → y.getD i 0 = x.getD i 0)

section Held

variable {s : Subset} {x y delta : Array R}

theorem plus_ofSubset (hx : s.size = x.size) (hdelta : delta.size = s.free.length) :
    (ofSubset s).plus x delta = .ok (.ofVector (s.moved x delta)) := by
  show (s.plus x delta).map Tensor.ofVector = _
  rw [Subset.plus_eq hx hdelta]
  rfl

theorem minus_ofSubset (hy : s.size = y.size) (hx : s.size = x.size) :
    (ofSubset s).minus y x = .ok (.ofVector (s.differences y x)) := by
  show (s.minus y x).map Tensor.ofVector = _
  rw [Subset.minus_eq hy hx]
  rfl

theorem plusJacobian_ofSubset (hx : s.size = x.size) :
    (ofSubset s).plusJacobian x = .ok s.plusJacobian := if_pos hx

/-- **Held coordinates** leave a parameterisation of the others. -/
theorem parameterizes_ofSubset {n : Nat} {held : List Int} (hsize : s.size = n)
    (hheld : ∀ i : Nat, i ∈ s.constants ↔ (i : Int) ∈ held) :
    (ofSubset s : Manifold R).Parameterizes n held := by
  have hnonneg : 0 ≤ s.size := by omega
  have hlength : (s.free.length : Int) = s.tangentSize := s.length_free hnonneg
  have hfree : ∀ i, i < n → (i ∈ s.free ↔ (i : Int) ∉ held) := by
    intro i hi
    simp [Subset.free_eq_filter hsize hheld, hi]
  refine ⟨hsize, ?_, ?_, ?_, ?_⟩
  · rw [← Subset.free_eq_filter hsize hheld, hlength]
    rfl
  · intro x hx
    have hcols := Subset.cols_plusJacobian (R := R) hnonneg
    have hrows : (s.plusJacobian : Dense R).rows = n := by
      show s.size.toNat = n
      omega
    exact ⟨s.plusJacobian, plusJacobian_ofSubset (by omega), hrows, hcols ▸ hlength,
      hcols ▸ Subset.transpose_mul_plusJacobian hnonneg⟩
  · intro x delta J hx hdelta hJ
    have hx' : s.size = x.size := by omega
    have hdelta : delta.size = s.free.length := by
      have hdelta : (delta.size : Int) = s.tangentSize := hdelta
      omega
    obtain rfl : s.plusJacobian = J := Except.ok.inj ((plusJacobian_ofSubset hx').symm.trans hJ)
    have hmoved : (s.moved x delta).size = n := by rw [Subset.size_moved, hx]
    refine ⟨s.moved x delta, plus_ofSubset hx' hdelta, hmoved, ?_, ?_, ?_⟩
    · exact fun i hi => Subset.getD_moved_eq_add hnonneg hx' hdelta (hx ▸ hi)
    · exact fun i hi hmem => Subset.getD_moved_of_not_mem fun h => (hfree i hi).mp h hmem
    · rw [minus_ofSubset (by omega) hx', Subset.differences_moved hx' hdelta]
  · intro x y hx hy
    have hx' : s.size = x.size := by omega
    have hdelta : (s.differences y x).size = s.free.length := s.size_differences y x
    have hmoved : (s.moved x (s.differences y x)).size = n := by rw [Subset.size_moved, hx]
    have hentry : ∀ i, i < n → (s.moved x (s.differences y x)).getD i 0 =
        if (i : Int) ∈ held then x.getD i 0 else y.getD i 0 := by
      intro i hi
      rw [Subset.getD_moved_differences hx', if_congr (hfree i hi) rfl rfl, ite_not]
    refine ⟨s.differences y x, s.moved x (s.differences y x), minus_ofSubset (by omega) hx', ?_,
      plus_ofSubset hx' hdelta, hmoved, hentry, ?_⟩
    · rw [hdelta]
      exact hlength
    · constructor
      · intro hequal i hi hmem
        rw [← hequal, hentry i hi, if_pos hmem]
      · intro hagree
        refine eq_of_getD (by omega) fun i hi => ?_
        have hi : i < n := hmoved ▸ hi
        rw [hentry i hi]
        split
        · rename_i hmem
          exact (hagree i hi hmem).symm
        · rfl

end Held

/-- Whatever is given for constants, a subset manifold of `n` coordinates is made exactly when they
stand for different whole numbers below `n`, none of them negative, where a number stands for what is
left without its fraction and one that is not finite for nothing. The manifold is a parameterisation
of the coordinates that are not held. -/
theorem subset_spec (n : Nat) (constants : List Atom) :
    ((∃ m : Manifold R, subset n constants = .ok m) ↔
        ∃ held, constants.mapM Atom.whole = .ok held ∧ held.Nodup ∧ ∀ i ∈ held, 0 ≤ i ∧ i < n) ∧
      (∀ values, constants.mapM Atom.value? = some values →
        constants.mapM Atom.whole = .ok (values.map towardZero)) ∧
      (∀ a ∈ constants, a.number?.isSome = true → a.value? = none →
        ∀ held, constants.mapM Atom.whole ≠ .ok held) ∧
      ∀ (m : Manifold R) (held : List Int), subset n constants = .ok m →
        constants.mapM Atom.whole = .ok held → m.Parameterizes n held := by
  have hmade : ∀ m : Manifold R, subset n constants = .ok m ↔
      ∃ held, constants.mapM Atom.whole = .ok held ∧
        ∃ s, Subset.make n held = .ok s ∧ ofSubset s = m := by
    intro m
    simp only [subset, bind_eq_ok_iff, pure, Except.pure, Except.ok.injEq]
  refine ⟨?_, ?_, ?_, ?_⟩
  · constructor
    · rintro ⟨m, hm⟩
      obtain ⟨held, hheld, s, hs, -⟩ := (hmade m).mp hm
      exact ⟨held, hheld, (Subset.of_make_eq_ok hs).1⟩
    · rintro ⟨held, hheld, hnodup, hinside⟩
      obtain ⟨s, hs⟩ := Subset.exists_make_eq_ok hnodup hinside
      exact ⟨ofSubset s, (hmade _).mpr ⟨held, hheld, s, hs, rfl⟩⟩
  · exact fun values => Atom.mapM_whole_of_mapM_value?
  · intro a ha hnumber hvalue held hheld
    obtain ⟨i, -, hi⟩ := exists_mem_of_mapM_eq_ok hheld ha
    rw [Atom.whole_eq_ok_iff hnumber, hvalue] at hi
    cases hi
  · intro m held hm hheld
    obtain ⟨held', hheld', s, hs, rfl⟩ := (hmade m).mp hm
    obtain rfl : held = held' := Except.ok.inj (hheld.symm.trans hheld')
    obtain ⟨-, hsize, hmem⟩ := Subset.of_make_eq_ok hs
    exact parameterizes_ofSubset hsize hmem

/-- Of four coordinates the third and the first are held, which leaves two to move. -/
theorem subset_spec_two_held :
    ∃ m : Manifold ℚ, subset (4 : Nat) [.integer 2, .integer 0] = .ok m ∧
      m.Parameterizes 4 [2, 0] ∧ m.tangentSize = 2 := by
  obtain ⟨hmade, -, -, hlaws⟩ := subset_spec (R := ℚ) 4 [.integer 2, .integer 0]
  obtain ⟨m, hm⟩ := hmade.mpr ⟨[2, 0], rfl, by decide, by decide⟩
  have laws := hlaws m [2, 0] hm rfl
  exact ⟨m, hm, laws, laws.tangentSize_eq.trans (by decide)⟩

end Manifold

end LeastSquares
