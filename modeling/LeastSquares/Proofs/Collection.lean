/-
LeastSquares.Proofs.Collection — a collected run is a traversal in order.

Threads go through the indices of their parts in an order that only the schedule knows, and each of
them stops at its first index that fails. Nothing of this is left in what the run reports. The
failure of a part depends on the part alone, and the parts in front of the first one that fails hold
all smaller indices, so the failure reported is that of the smallest index that fails
(`snd_collect`), which is that of a traversal of the members (`snd_collect_eq`).

Where none fails, the memory holds what one thread makes of it that puts the results of the indices
into it one after the other, in the order of the schedule (`memory_collect`). If the memory has a
slot for every index, it holds the result of each index in the end (`memory_collect_intoSlot`), so
that evaluating the residual blocks of a problem is a traversal of them: `evaluateAll_eq`.
-/
import LeastSquares.Problem.Jacobian
import LeastSquares.Proofs.Partition
import LeastSquares.Proofs.Traversal

namespace LeastSquares

namespace Parallel

variable {σ ε β ν : Type}

/-! ## Failures -/

/-- A thread stops at the first index of its part that fails. -/
theorem snd_fill (task : Nat → List ν × Except ε β) (put : Nat → β → σ → σ) (is : List Nat)
    (shared : Shared σ ν) :
    (fill task put is shared).2 = is.findSome? fun i => failure? (task i).2 := by
  induction is generalizing shared with
  | nil => rfl
  | cons i is ih =>
    rw [fill, List.findSome?_cons]
    split
    · rename_i taken b h
      rw [h, ih]
      rfl
    · rename_i taken e h
      rw [h]
      rfl

/-- Workers whose failure depends on their part alone report the failures of the parts. -/
theorem snd_runAll {worker : Worker σ ε} {fault : Span → Option ε} {parts : List Span}
    (h : ∀ part ∈ parts, ∀ state, (worker part state).2 = fault part) (state : σ) :
    (runAll worker parts state).2 =
      parts.filterMap fun part => (fault part).map fun e => (part, e) := by
  induction parts generalizing state with
  | nil => rfl
  | cons part rest ih =>
    have hpart := h part List.mem_cons_self state
    have hrest := ih fun q hq => h q (List.mem_cons_of_mem _ hq)
    rw [runAll, List.filterMap_cons, ← hpart]
    cases hfailure : (worker part state).2 with
    | none => simp [hfailure, hrest]
    | some e => simp [hfailure, hrest]

theorem lookup_filterMap (fault : Span → Option ε) (parts : List Span) (part : Span) :
    (parts.filterMap fun part => (fault part).map fun e => (part, e)).lookup part =
      if part ∈ parts then fault part else none := by
  induction parts with
  | nil => rfl
  | cons q rest ih =>
    rw [List.filterMap_cons]
    by_cases hq : part = q
    · subst hq
      cases hfault : fault part with
      | none => simp [hfault, ih]
      | some e => simp
    · have hne : (part == q) = false := by simpa using hq
      cases hfault : fault q with
      | none => simp [ih, hq]
      | some e => simp [List.lookup_cons, hne, ih, hq]

/-- The failure reported is that of the first part that fails, in whatever order the parts ran. -/
theorem firstFailure_filterMap (fault : Span → Option ε) {order parts : List Span}
    (h : order.Perm parts) :
    firstFailure parts (order.filterMap fun part => (fault part).map fun e => (part, e)) =
      parts.findSome? fault := by
  unfold firstFailure
  refine findSome?_congr fun part hpart => ?_
  rw [lookup_filterMap, if_pos (h.mem_iff.mpr hpart)]

/-- **The failure of a collected run** is that of the smallest index that fails. -/
theorem snd_collect (schedule : Schedule) (n : Nat) (threads : Int)
    (task : Nat → List ν × Except ε β) (put : Nat → β → σ → σ) (memory : σ) :
    (collect schedule n threads task put memory).2 =
      (List.range n).findSome? fun i => failure? (task i).2 := by
  have hworker : ∀ part ∈ schedule.order (parts ⟨0, n⟩ threads), ∀ shared : Shared σ ν,
      (fill task put part.naturals shared).2 =
        part.naturals.findSome? fun i => failure? (task i).2 :=
    fun part _ shared => snd_fill task put part.naturals shared
  have hfailures := snd_runAll hworker ⟨memory, #[]⟩
  unfold collect run
  simp only [hfailures]
  rw [firstFailure_filterMap _ (schedule.perm _), ← Span.naturals_zero,
    ← flatMap_naturals_parts ⟨0, n⟩ threads, findSome?_flatMap]

/-- A collected run over the members of an array fails as a traversal of them does. -/
theorem snd_collect_eq {γ : Type} {f : γ → Except ε β} {xs : Array γ}
    {task : Nat → List ν × Except ε β} (h : ∀ i (hi : i < xs.size), (task i).2 = f xs[i])
    (schedule : Schedule) (threads : Int) (put : Nat → β → σ → σ) (memory : σ) :
    (collect schedule xs.size threads task put memory).2 = failure? (xs.toList.mapM f) := by
  have htasks : ((List.range xs.size).map fun i => (task i).2) = xs.toList.map f := by
    apply List.ext_getElem
    · simp
    · intro i hi _
      have hi : i < xs.size := by simpa using hi
      simp [h i hi]
  have hfound := congrArg (List.findSome? failure?) htasks
  rw [List.findSome?_map, List.findSome?_map] at hfound
  rw [snd_collect]
  refine hfound.trans ?_
  cases hxs : xs.toList.mapM f with
  | error e => exact mapM_eq_error_iff.mp hxs
  | ok ys =>
    rw [failure?_ok, List.findSome?_eq_none_iff]
    intro x hx
    obtain ⟨i, hi⟩ := List.mem_iff_getElem?.mp hx
    obtain ⟨y, -, hy⟩ := getElem?_of_mapM_eq_ok hxs hi
    rw [Function.comp_apply, hy, failure?_ok]

/-! ## The memory -/

/-- A step that changes the memory, and the notes that are taken with it. -/
def turn (task : Nat → List ν × Except ε β) (step : σ → Nat → σ) (shared : Shared σ ν) (i : Nat) :
    Shared σ ν :=
  ⟨step shared.memory i, shared.notes ++ (task i).1⟩

theorem memory_foldl_turn (task : Nat → List ν × Except ε β) (step : σ → Nat → σ) (is : List Nat)
    (shared : Shared σ ν) :
    (is.foldl (turn task step) shared).memory = is.foldl step shared.memory := by
  induction is generalizing shared with
  | nil => rfl
  | cons i is ih =>
    rw [List.foldl_cons, ih]
    rfl

theorem notes_foldl_turn (task : Nat → List ν × Except ε β) (step : σ → Nat → σ) (is : List Nat)
    (shared : Shared σ ν) :
    (is.foldl (turn task step) shared).notes.toList =
      shared.notes.toList ++ is.flatMap fun i => (task i).1 := by
  induction is generalizing shared with
  | nil => simp
  | cons i is ih =>
    rw [List.foldl_cons, ih, List.flatMap_cons]
    simp [turn]

variable {task : Nat → List ν × Except ε β} {put : Nat → β → σ → σ} {step : σ → Nat → σ}

/-- Where no index of its part fails, a thread takes one step for each of them. -/
theorem fill_eq_foldl {is : List Nat}
    (h : ∀ i ∈ is, ∃ b, (task i).2 = .ok b ∧ ∀ memory, put i b memory = step memory i)
    (shared : Shared σ ν) :
    fill task put is shared = (is.foldl (turn task step) shared, none) := by
  induction is generalizing shared with
  | nil => rfl
  | cons i is ih =>
    obtain ⟨b, hi, hput⟩ := h i List.mem_cons_self
    rw [fill, List.foldl_cons]
    split
    · rename_i taken b' htask
      rw [htask] at hi
      cases hi
      rw [ih fun j hj => h j (List.mem_cons_of_mem _ hj), hput, turn, htask]
    · rename_i taken e htask
      rw [htask] at hi
      cases hi

/-- A collected run in which no index fails takes one step for each index, in the order of the
schedule. -/
theorem collect_eq_foldl {n : Nat}
    (h : ∀ i, i < n → ∃ b, (task i).2 = .ok b ∧ ∀ memory, put i b memory = step memory i)
    (schedule : Schedule) (threads : Int) (memory : σ) :
    collect schedule n threads task put memory =
      ((scheduled schedule n threads).foldl (turn task step) ⟨memory, #[]⟩, none) := by
  have hworker : ∀ part ∈ schedule.order (parts ⟨0, n⟩ threads), ∀ shared : Shared σ ν,
      fill task put part.naturals shared =
        (part.naturals.foldl (turn task step) shared, none) := by
    intro part hpart shared
    refine fill_eq_foldl (fun i hi => ?_) shared
    exact h i ((mem_scheduled schedule n threads i).mp (List.mem_flatMap.mpr ⟨part, hpart, hi⟩))
  exact run_foldl hworker ⟨memory, #[]⟩

/-- **The memory of a collected run** in which no index fails. -/
theorem memory_collect {n : Nat}
    (h : ∀ i, i < n → ∃ b, (task i).2 = .ok b ∧ ∀ memory, put i b memory = step memory i)
    (schedule : Schedule) (threads : Int) (memory : σ) :
    (collect schedule n threads task put memory).1.memory =
      (scheduled schedule n threads).foldl step memory := by
  rw [collect_eq_foldl h, memory_foldl_turn]

/-- **The notes of a collected run** in which no index fails are those of the indices, in some
order. -/
theorem notes_collect {n : Nat} (h : ∀ i, i < n → ∃ b, (task i).2 = .ok b) (schedule : Schedule)
    (threads : Int) (put : Nat → β → σ → σ) (memory : σ) :
    (collect schedule n threads task put memory).1.notes.toList.Perm
      ((List.range n).flatMap fun i => (task i).1) := by
  have hsteps : ∀ i, i < n → ∃ b, (task i).2 = .ok b ∧ ∀ memory, put i b memory =
      match (task i).2 with
      | .ok b => put i b memory
      | .error _ => memory := by
    intro i hi
    obtain ⟨b, hb⟩ := h i hi
    exact ⟨b, hb, fun memory => by rw [hb]⟩
  rw [collect_eq_foldl hsteps, notes_foldl_turn]
  exact (perm_range_scheduled schedule n threads).flatMap_right _

/-- Every slot holds the result of its own index, if no index fails. -/
theorem memory_collect_intoSlot {n : Nat} {value : Nat → Option β}
    (h : ∀ i, i < n → ∃ b, (task i).2 = .ok b ∧ value i = some b) (schedule : Schedule)
    (threads : Int) :
    (collect schedule n threads task intoSlot (Array.replicate n none)).1.memory =
      ((List.range n).map value).toArray := by
  have hsteps : ∀ i, i < n → ∃ b, (task i).2 = .ok b ∧
      ∀ slots, intoSlot i b slots = slots.setIfInBounds i (value i) := by
    intro i hi
    obtain ⟨b, hb, hvalue⟩ := h i hi
    exact ⟨b, hb, fun slots => by rw [intoSlot, hvalue]⟩
  have hperm : (scheduled schedule n threads).Perm
      (List.range (Array.replicate n (none : Option β)).size) := by
    rw [Array.size_replicate]
    exact perm_range_scheduled schedule n threads
  have hall := writeAll_of_perm value hperm
  rw [Array.size_replicate] at hall
  rw [memory_collect hsteps]
  exact hall

/-- Slots that are filled by a run over the members of an array hold what a traversal of them
gives. -/
theorem filled_collect {γ : Type} {f : γ → Except Fault β} {xs : Array γ} {ys : List β}
    {task : Nat → List ν × Except Fault β} (h : ∀ i (hi : i < xs.size), (task i).2 = f xs[i])
    (hys : xs.toList.mapM f = .ok ys) (schedule : Schedule) (threads : Int) :
    Problem.filled (collect schedule xs.size threads task intoSlot
      (Array.replicate xs.size none)).1.memory = .ok ys := by
  have hlength : ys.length = xs.size := by simpa using length_of_mapM_eq_ok hys
  have hvalue : ∀ i, i < xs.size → ∃ y, (task i).2 = .ok y ∧ ys[i]? = some y := by
    intro i hi
    have hget : xs.toList[i]? = some xs[i] := by simp [hi]
    obtain ⟨y, hy, hf⟩ := getElem?_of_mapM_eq_ok hys hget
    exact ⟨y, by rw [h i hi, hf], hy⟩
  have hread : ((List.range xs.size).map fun i => ys[i]?).mapM id = some ys := by
    rw [mapM_eq_some_iff, ← hlength]
    apply List.ext_getElem?
    intro i
    rcases Nat.lt_or_ge i ys.length with hi | hi
    · simp [hi]
    · simp [hi]
  rw [memory_collect_intoSlot hvalue, Problem.filled, hread]

end Parallel

namespace Problem

variable {α : Type} [Zero α] [One α] [Add α] [Sub α] [Mul α] [Div α] [NatCast α] [BEq α]
  [LE α] [DecidableLE α] [Elementary α]

theorem snd_evaluateAt (p : Problem α) (projections : Array (Option (Dense α))) (applyLoss : Bool)
    (i : Nat) (hi : i < p.residuals.size) :
    (p.evaluateAt projections applyLoss i).2 =
      p.evaluate projections applyLoss p.residuals[i] := by
  simp [evaluateAt, hi]

/-- **Evaluation in order.** Evaluating all residual blocks is a traversal of them, whatever the
schedule and the number of threads. -/
theorem evaluateAll_eq (p : Problem α) (schedule : Schedule) (bounds : ColumnBounds)
    (applyLoss : Bool) (threads : Int) :
    p.evaluateAll schedule bounds applyLoss threads =
      match p.projections bounds with
      | .error e => .error e
      | .ok projections => p.residuals.toList.mapM (p.evaluate projections applyLoss) := by
  unfold evaluateAll
  cases p.projections bounds with
  | error e => rfl
  | ok projections =>
    have htask := p.snd_evaluateAt projections applyLoss
    simp only [bind, Except.bind]
    split
    · rename_i shared e hcollect
      have hfailure := Parallel.snd_collect_eq htask schedule threads Parallel.intoSlot
        (Array.replicate p.residuals.size none)
      rw [hcollect] at hfailure
      exact (failure?_eq_some_iff.mp hfailure.symm).symm
    · rename_i shared hcollect
      have hfailure := Parallel.snd_collect_eq htask schedule threads Parallel.intoSlot
        (Array.replicate p.residuals.size none)
      rw [hcollect] at hfailure
      obtain ⟨evaluated, hevaluated⟩ := failure?_eq_none_iff.mp hfailure.symm
      have hfilled := Parallel.filled_collect htask hevaluated schedule threads
      rw [hcollect] at hfilled
      rw [hfilled, hevaluated]

end Problem

end LeastSquares
