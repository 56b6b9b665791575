/-
LeastSquares.Proofs.Traversal — going through a list with a step that may fail.

A traversal gives all results or the first failure. `mapM_eq_ok_iff` and `mapM_eq_some_iff` say when
it gives the results, member by member; `mapM_eq_error_iff` says which failure it gives, with
`failure?` for the failure of a single step. Where a list stands in an order, its first hit is the
smallest one (`findSome?_eq_some_iff_of_pairwise`), and its members are all that it is
(`eq_of_pairwise`).
-/

namespace LeastSquares

variable {ε β γ : Type}

/-- The failure of a step that fails. -/
def failure? : Except ε β → Option ε
  | .error e => some e
  | .ok _ => none

@[simp] theorem failure?_error (e : ε) : failure? (.error e : Except ε β) = some e := rfl

@[simp] theorem failure?_ok (b : β) : failure? (.ok b : Except ε β) = none := rfl

theorem failure?_eq_some_iff {x : Except ε β} {e : ε} : failure? x = some e ↔ x = .error e := by
  cases x with
  | error e' => simp
  | ok b => simp

theorem failure?_eq_none_iff {x : Except ε β} : failure? x = none ↔ ∃ b, x = .ok b := by
  cases x with
  | error e => simp
  | ok b => simp

/-- Two steps one after the other give a result when both do. -/
theorem bind_eq_ok_iff {x : Except ε β} {f : β → Except ε γ} {c : γ} :
    x >>= f = .ok c ↔ ∃ b, x = .ok b ∧ f b = .ok c := by
  cases x with
  | error e => simp [bind, Except.bind]
  | ok b => simp [bind, Except.bind]

theorem map_eq_ok_iff {x : Except ε β} {f : β → γ} {c : γ} :
    x.map f = .ok c ↔ ∃ b, x = .ok b ∧ f b = c := by
  cases x with
  | error e => simp [Except.map]
  | ok b => simp [Except.map]

/-- Two steps one after the other fail with the failure of the first one that fails. -/
theorem bind_eq_error_iff {x : Except ε β} {f : β → Except ε γ} {e : ε} :
    x >>= f = .error e ↔ x = .error e ∨ ∃ b, x = .ok b ∧ f b = .error e := by
  cases x with
  | error e' => simp [bind, Except.bind]
  | ok b => simp [bind, Except.bind]

theorem map_eq_error_iff {x : Except ε β} {f : β → γ} {e : ε} :
    x.map f = .error e ↔ x = .error e := by
  cases x with
  | error e' => simp [Except.map]
  | ok b => simp [Except.map]

/-- The first hit depends on the members alone. -/
theorem findSome?_congr {f g : β → Option γ} {xs : List β} (h : ∀ x ∈ xs, f x = g x) :
    xs.findSome? f = xs.findSome? g := by
  induction xs with
  | nil => rfl
  | cons x xs ih =>
    rw [List.findSome?_cons, List.findSome?_cons, h x List.mem_cons_self,
      ih fun y hy => h y (List.mem_cons_of_mem _ hy)]

/-- In a list that stands in an order, the first hit is the one without a smaller hit. -/
theorem findSome?_eq_some_iff_of_pairwise {r : β → β → Prop} {xs : List β} (sorted : xs.Pairwise r)
    (asymm : ∀ x y, r x y → ¬ r y x) {f : β → Option γ} {c : γ} :
    xs.findSome? f = some c ↔ ∃ x ∈ xs, f x = some c ∧ ∀ y ∈ xs, r y x → f y = none := by
  rw [List.findSome?_eq_some_iff]
  constructor
  · rintro ⟨before, x, rest, rfl, hx, hbefore⟩
    obtain ⟨-, hrest, -⟩ := List.pairwise_append.mp sorted
    refine ⟨x, by simp, hx, fun y hy hyx => ?_⟩
    rcases List.mem_append.mp hy with hy | hy
    · exact hbefore y hy
    · rcases List.mem_cons.mp hy with rfl | hy
      · exact absurd hyx (asymm y y hyx)
      · exact absurd hyx (asymm x y (List.rel_of_pairwise_cons hrest hy))
  · rintro ⟨x, hmem, hx, hsmaller⟩
    obtain ⟨before, rest, rfl⟩ := List.append_of_mem hmem
    obtain ⟨-, -, hbefore⟩ := List.pairwise_append.mp sorted
    exact ⟨before, x, rest, rfl, hx, fun y hy =>
      hsmaller y (by simp [hy]) (hbefore y hy x List.mem_cons_self)⟩

/-- Lists of the same members that stand in one order are equal. -/
theorem eq_of_pairwise {r : β → β → Prop} {xs ys : List β}
    (asymm : ∀ x ∈ xs, ∀ y ∈ xs, r x y → ¬ r y x) (hx : xs.Pairwise r) (hy : ys.Pairwise r)
    (h : ∀ x, x ∈ xs ↔ x ∈ ys) : xs = ys := by
  have hne : ∀ x ∈ xs, ∀ y ∈ xs, r x y → x ≠ y := by
    rintro x hx y hy hxy rfl
    exact asymm x hx x hx hxy hxy
  have hnodup : xs.Nodup := hx.imp_of_mem fun hx hy => hne _ hx _ hy
  have hnodup' : ys.Nodup :=
    hy.imp_of_mem fun hx hy => hne _ ((h _).mpr hx) _ ((h _).mpr hy)
  have hperm : xs.Perm ys := (List.perm_ext_iff_of_nodup hnodup hnodup').mpr h
  refine hperm.eq_of_pairwise ?_ hx hy
  intro x y hx hy hxy hyx
  exact absurd hyx (asymm x hx y ((h y).mpr hy) hxy)

/-- The first hit in a list of lists is that of the first list which has one. -/
theorem findSome?_flatMap {δ : Type} (f : γ → Option δ) (g : β → List γ) (xs : List β) :
    (xs.flatMap g).findSome? f = xs.findSome? fun x => (g x).findSome? f := by
  induction xs with
  | nil => rfl
  | cons x xs ih =>
    rw [List.flatMap_cons, List.findSome?_append, ih, List.findSome?_cons]
    cases (g x).findSome? f <;> rfl

/-- A traversal succeeds when every member does, and collects the results in order. -/
theorem mapM_eq_ok_iff {f : β → Except ε γ} {xs : List β} {ys : List γ} :
    xs.mapM f = .ok ys ↔ xs.map f = ys.map .ok := by
  induction xs generalizing ys with
  | nil =>
    cases ys with
    | nil => simp [pure, Except.pure]
    | cons y ys => simp [pure, Except.pure]
  | cons x xs ih =>
    rw [List.mapM_cons]
    cases hx : f x with
    | error e => cases ys <;> simp [bind, Except.bind, hx]
    | ok y =>
      cases hxs : xs.mapM f with
      | error e =>
        cases ys with
        | nil => simp [bind, Except.bind]
        | cons y' ys =>
          have hnever : ¬ xs.map f = ys.map .ok := by
            rw [← ih, hxs]
            simp
          simp [bind, Except.bind, hx, hnever]
      | ok zs =>
        cases ys with
        | nil => simp [bind, Except.bind, pure, Except.pure]
        | cons y' ys =>
          have hrest : zs = ys ↔ xs.map f = ys.map .ok := by
            rw [← ih, hxs, Except.ok.injEq]
          simp [bind, Except.bind, pure, Except.pure, hx, hrest]

/-- A traversal fails with the failure of the first member that fails. -/
theorem mapM_eq_error_iff {f : β → Except ε γ} {xs : List β} {e : ε} :
    xs.mapM f = .error e ↔ (xs.findSome? fun x => failure? (f x)) = some e := by
  induction xs with
  | nil => simp [pure, Except.pure]
  | cons x xs ih =>
    rw [List.mapM_cons, List.findSome?_cons]
    cases hx : f x with
    | error e' => simp [bind, Except.bind]
    | ok y =>
      simp only [bind, Except.bind, failure?_ok]
      rw [← ih]
      cases xs.mapM f with
      | error e' => simp
      | ok ys => simp [pure, Except.pure]

/-- The first step that fails, on the way through a list, fails with a given failure. -/
def FailsFirst (f : β → Except ε γ) (xs : List β) (e : ε) : Prop :=
  ∃ before x rest, xs = before ++ x :: rest ∧ f x = .error e ∧ ∀ y ∈ before, ∃ z, f y = .ok z

theorem mapM_eq_error_iff_failsFirst {f : β → Except ε γ} {xs : List β} {e : ε} :
    xs.mapM f = .error e ↔ FailsFirst f xs e := by
  rw [mapM_eq_error_iff, List.findSome?_eq_some_iff]
  simp only [FailsFirst, failure?_eq_some_iff, failure?_eq_none_iff]

/-- A traversal depends on the steps at the members alone. -/
theorem mapM_congr {f g : β → Except ε γ} {xs : List β} (h : ∀ x ∈ xs, f x = g x) :
    xs.mapM f = xs.mapM g := by
  induction xs with
  | nil => rfl
  | cons x xs ih =>
    rw [List.mapM_cons, List.mapM_cons, h x List.mem_cons_self,
      ih fun y hy => h y (List.mem_cons_of_mem _ hy)]

/-- The members of a traversal that succeeds, one by one. -/
theorem getElem?_of_mapM_eq_ok {f : β → Except ε γ} {xs : List β} {ys : List γ}
    (h : xs.mapM f = .ok ys) {i : Nat} {x : β} (hx : xs[i]? = some x) :
    ∃ y, ys[i]? = some y ∧ f x = .ok y := by
  have hmap : (xs.map f)[i]? = (ys.map .ok)[i]? := by rw [mapM_eq_ok_iff.mp h]
  rw [List.getElem?_map, List.getElem?_map, hx, Option.map_some] at hmap
  cases hy : ys[i]? with
  | none => simp [hy] at hmap
  | some y =>
    rw [hy, Option.map_some, Option.some.injEq] at hmap
    exact ⟨y, rfl, hmap⟩

/-- A step and what it found stand at the same number. -/
theorem eq_ok_of_mapM_eq_ok {f : β → Except ε γ} {xs : List β} {ys : List γ}
    (h : xs.mapM f = .ok ys) {i : Nat} {x : β} {y : γ} (hx : xs[i]? = some x)
    (hy : ys[i]? = some y) : f x = .ok y := by
  obtain ⟨z, hz, hf⟩ := getElem?_of_mapM_eq_ok h hx
  rw [hy, Option.some.injEq] at hz
  rw [hf, hz]

/-- Every step of a traversal that succeeds found something. -/
theorem exists_mem_of_mapM_eq_ok {f : β → Except ε γ} {xs : List β} {ys : List γ}
    (h : xs.mapM f = .ok ys) {x : β} (hx : x ∈ xs) : ∃ y ∈ ys, f x = .ok y := by
  obtain ⟨i, hi⟩ := List.mem_iff_getElem?.mp hx
  obtain ⟨y, hy, hf⟩ := getElem?_of_mapM_eq_ok h hi
  exact ⟨y, List.mem_of_getElem? hy, hf⟩

/-- Where some step gives nothing, there is a first one that fails. -/
theorem exists_failsFirst {f : β → Except ε γ} {xs : List β} (h : ∃ x ∈ xs, ∀ y, f x ≠ .ok y) :
    ∃ e, FailsFirst f xs e := by
  cases hxs : xs.mapM f with
  | error e => exact ⟨e, mapM_eq_error_iff_failsFirst.mp hxs⟩
  | ok ys =>
    obtain ⟨x, hx, hnot⟩ := h
    obtain ⟨y, -, hy⟩ := exists_mem_of_mapM_eq_ok hxs hx
    exact absurd hy (hnot y)

/-- What a traversal found, one by one. -/
theorem exists_getElem?_of_mapM_eq_ok {f : β → Except ε γ} {xs : List β} {ys : List γ}
    (h : xs.mapM f = .ok ys) {i : Nat} {y : γ} (hy : ys[i]? = some y) :
    ∃ x, xs[i]? = some x ∧ f x = .ok y := by
  have hmap : (xs.map f)[i]? = (ys.map .ok)[i]? := by rw [mapM_eq_ok_iff.mp h]
  rw [List.getElem?_map, List.getElem?_map, hy, Option.map_some] at hmap
  exact Option.map_eq_some_iff.mp hmap

/-- A traversal whose steps all give something gives something. -/
theorem exists_mapM_eq_ok {f : β → Except ε γ} {xs : List β} (h : ∀ x ∈ xs, ∃ y, f x = .ok y) :
    ∃ ys, xs.mapM f = .ok ys := by
  cases hxs : xs.mapM f with
  | ok ys => exact ⟨ys, rfl⟩
  | error e =>
    obtain ⟨x, hx, hfailure⟩ := List.exists_of_findSome?_eq_some (mapM_eq_error_iff.mp hxs)
    obtain ⟨y, hy⟩ := h x hx
    rw [hy] at hfailure
    cases hfailure

theorem length_of_mapM_eq_ok {f : β → Except ε γ} {xs : List β} {ys : List γ}
    (h : xs.mapM f = .ok ys) : ys.length = xs.length := by
  simpa using (congrArg List.length (mapM_eq_ok_iff.mp h)).symm

/-- A traversal finds something when every member does. -/
theorem mapM_eq_some_iff {f : β → Option γ} {xs : List β} {ys : List γ} :
    xs.mapM f = some ys ↔ xs.map f = ys.map some := by
  induction xs generalizing ys with
  | nil => cases ys <;> simp
  | cons x xs ih =>
    rw [List.mapM_cons]
    cases hx : f x with
    | none => cases ys <;> simp [hx]
    | some y =>
      cases ys with
      | nil => simp [Option.bind_eq_some_iff]
      | cons y' ys =>
        simp only [bind, Option.bind_some, Option.bind_eq_some_iff, pure, Option.some.injEq,
          List.cons.injEq, List.map_cons, hx]
        constructor
        · rintro ⟨zs, hzs, rfl, rfl⟩
          exact ⟨rfl, ih.mp hzs⟩
        · rintro ⟨rfl, hxs⟩
          exact ⟨ys, ih.mpr hxs, rfl, rfl⟩

/-- What is found is not there when one part of it is not. -/
theorem mapM_id_eq_none_iff {xs : List (Option γ)} : xs.mapM id = none ↔ none ∈ xs := by
  induction xs with
  | nil => simp
  | cons x xs ih =>
    rw [List.mapM_cons, List.mem_cons]
    cases x with
    | none => simp
    | some y =>
      rw [← ih]
      cases xs.mapM id <;> simp

end LeastSquares
