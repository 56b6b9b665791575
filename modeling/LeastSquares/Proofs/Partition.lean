/-
LeastSquares.Proofs.Partition — a run over the parts of a span is a run over the span.

A span is split into parts that lie end to end, so the integers of the parts are those of the span,
in order and none of them twice (`flatMap_indices_split`, `flatMap_naturals_parts`). The same holds
of the chunks that a thread cuts its part into (`flatten_chunks`).

A worker that goes through its part piece by piece, index by index or chunk by chunk, and never
fails therefore goes through the pieces of all parts (`runAll_foldl`, `run_chunks`), in an order that
only the schedule decides. When its step for an index writes a value of its own into the slot of
that index, the order leaves no trace: every slot holds its value in the end (`writeAll_of_perm`).
-/
import LeastSquares.Parallel
import LeastSquares.Covariance.Selective

namespace LeastSquares

namespace Span

/-! ## The parts of a span -/

/-- Two spans end to end are one span. -/
theorem indices_append {a b c : Int} (hab : a ≤ b) (hbc : b ≤ c) :
    (Span.mk a b).indices ++ (Span.mk b c).indices = (Span.mk a c).indices := by
  have hsize : (Span.mk a c).size = (Span.mk a b).size + (Span.mk b c).size := by
    simp only [size]
    omega
  have hstart : b = a + ((Span.mk a b).size : Int) := by
    simp only [size]
    omega
  unfold indices
  rw [hsize, List.range_add, List.map_append, List.map_map]
  refine congrArg _ (List.map_congr_left fun k _ => ?_)
  simp only [Function.comp_apply, Int.natCast_add]
  omega

/-- Adjacent parts hold the integers from the first one on, as many as their sizes add up to. -/
theorem flatMap_indices_tiles (start : Int) (base count extra : Nat) (h : extra ≤ count) :
    (tiles start base count extra).flatMap indices =
      (Span.mk start (start + ((base * count + extra : Nat) : Int))).indices := by
  induction count generalizing start extra with
  | zero =>
    obtain rfl : extra = 0 := by omega
    simp [tiles, indices, size]
  | succ count ih =>
    rw [tiles, List.flatMap_cons, Nat.mul_succ]
    rcases Nat.eq_zero_or_pos extra with rfl | hpos
    · rw [ih _ 0 (Nat.zero_le _), if_neg (Nat.lt_irrefl 0), indices_append (by omega) (by omega)]
      congr 2
      omega
    · rw [ih _ (extra - 1) (by omega), if_pos hpos, indices_append (by omega) (by omega)]
      congr 2
      omega

/-- The parts of a span hold its integers, in order. -/
theorem flatMap_indices_split (s : Span) {count : Nat} (h : 0 < count) :
    (s.split count).flatMap indices = s.indices := by
  unfold split
  rcases Nat.eq_zero_or_pos s.size with hs | hs
  · have hindices : s.indices = [] := by simp [indices, hs]
    rw [hs, Nat.min_zero, hindices]
    rfl
  · have hparts : 0 < min count s.size := by omega
    have hsize : s.size / min count s.size * min count s.size + s.size % min count s.size =
        s.size := Nat.div_add_mod' _ _
    rw [flatMap_indices_tiles _ _ _ _ (Nat.le_of_lt (Nat.mod_lt _ hparts)), hsize]
    have hspan : (Span.mk s.start (s.start + (s.size : Int))).size = s.size := by
      simp only [size]
      omega
    simp only [indices, hspan]

theorem naturals_zero (n : Nat) : (Span.mk 0 n).naturals = List.range n := by
  unfold naturals indices
  rw [List.map_map]
  have hsize : (Span.mk 0 n).size = n := by simp [size]
  rw [hsize]
  simp [Function.comp_def]

end Span

namespace Selective

/-- The chunks of a list hold its members, in order. -/
theorem flatten_chunks {β : Type} {size : Nat} (h : 0 < size) (xs : List β) :
    (chunks size xs).flatten = xs := by
  fun_induction chunks size xs with
  | case1 xs hnil =>
    rcases hnil with hnil | hzero
    · rw [List.length_eq_zero_iff.mp hnil]
      rfl
    · omega
  | case2 xs _ ih => rw [List.flatten_cons, ih, List.take_append_drop]

end Selective

/-- What is written shows in its own slot, if there is one, and nowhere else. -/
theorem getD_setIfInBounds {α : Type} [Zero α] (x : Array α) (k : Nat) (v : α) (j : Nat) :
    (x.setIfInBounds k v).getD j 0 = if j = k ∧ k < x.size then v else x.getD j 0 := by
  simp only [Array.getD_eq_getD_getElem?, Array.getElem?_setIfInBounds]
  by_cases hjk : j = k
  · subst hjk
    by_cases hj : j < x.size <;> simp [hj]
  · rw [if_neg fun h => hjk h.symm, if_neg fun h => hjk h.1]

namespace Parallel

variable {σ ε β : Type}

/-- The parts that threads share hold the numbers of the span. -/
theorem flatMap_naturals_parts (s : Span) (threads : Int) :
    (parts s threads).flatMap Span.naturals = s.naturals := by
  have hcount : 0 < (max threads 1).toNat := by omega
  have hflat := Span.flatMap_indices_split s hcount
  unfold Span.naturals parts
  rw [← hflat, List.map_flatMap]

/-! ## Runs -/

theorem run_eq (schedule : Schedule) (s : Span) (threads : Int) (worker : Worker σ ε) (state : σ) :
    run schedule s threads worker state =
      ((runAll worker (schedule.order (parts s threads)) state).1,
        firstFailure (parts s threads)
          (runAll worker (schedule.order (parts s threads)) state).2) := rfl

/-- Workers that take one step for each piece of their part take one step for each piece of all
parts. -/
theorem runAll_foldl {γ : Type} {worker : Worker σ ε} {step : σ → γ → σ} {pieces : Span → List γ}
    {parts : List Span}
    (h : ∀ part ∈ parts, ∀ state, worker part state = ((pieces part).foldl step state, none))
    (state : σ) :
    runAll worker parts state = ((parts.flatMap pieces).foldl step state, []) := by
  induction parts generalizing state with
  | nil => rfl
  | cons part rest ih =>
    rw [runAll, h part List.mem_cons_self]
    simp only [ih fun q hq => h q (List.mem_cons_of_mem _ hq)]
    rw [List.flatMap_cons, List.foldl_append]

theorem firstFailure_nil (parts : List Span) :
    firstFailure parts ([] : List (Span × ε)) = none := by
  unfold firstFailure
  induction parts with
  | nil => rfl
  | cons part rest ih => rw [List.findSome?_cons, List.lookup_nil, ih]

/-- Write the value of every index into its slot. -/
def writeAll (value : Nat → β) (slots : Array β) (is : List Nat) : Array β :=
  is.foldl (fun slots i => slots.setIfInBounds i (value i)) slots

@[simp] theorem size_writeAll (value : Nat → β) (slots : Array β) (is : List Nat) :
    (writeAll value slots is).size = slots.size := by
  induction is generalizing slots with
  | nil => rfl
  | cons i is ih =>
    have hset := ih (slots.setIfInBounds i (value i))
    rw [Array.size_setIfInBounds] at hset
    exact hset

theorem writeAll_append (value : Nat → β) (slots : Array β) (is js : List Nat) :
    writeAll value slots (is ++ js) = writeAll value (writeAll value slots is) js :=
  List.foldl_append

/-- A slot holds its value once its index has been met, however often and in whatever order. -/
theorem getElem?_writeAll (value : Nat → β) (slots : Array β) (is : List Nat) {k : Nat}
    (hk : k < slots.size) :
    (writeAll value slots is)[k]? = if k ∈ is then some (value k) else slots[k]? := by
  induction is generalizing slots with
  | nil => rfl
  | cons i is ih =>
    have hset := ih (slots.setIfInBounds i (value i)) (by rwa [Array.size_setIfInBounds])
    show (writeAll value (slots.setIfInBounds i (value i)) is)[k]? = _
    rw [hset, Array.getElem?_setIfInBounds]
    by_cases hmem : k ∈ is
    · simp [hmem]
    · by_cases hik : i = k
      · subst hik
        simp [hk]
      · have hki : ¬ k = i := fun h => hik h.symm
        simp [hmem, hik, hki]

/-- The indices below a bound, in the order in which the threads go through them. -/
def scheduled (schedule : Schedule) (n : Nat) (threads : Int) : List Nat :=
  (schedule.order (parts ⟨0, n⟩ threads)).flatMap Span.naturals

/-- The scheduled parts hold every index below the bound once. -/
theorem perm_range_scheduled (schedule : Schedule) (n : Nat) (threads : Int) :
    (scheduled schedule n threads).Perm (List.range n) := by
  rw [← Span.naturals_zero n, ← flatMap_naturals_parts ⟨0, n⟩ threads]
  exact (schedule.perm _).flatMap_right _

theorem mem_scheduled (schedule : Schedule) (n : Nat) (threads : Int) (k : Nat) :
    k ∈ scheduled schedule n threads ↔ k < n := by
  rw [(perm_range_scheduled schedule n threads).mem_iff, List.mem_range]

/-- Workers that take one step for each index of their part and never fail take one step for each
index below the bound. -/
theorem run_foldl {worker : Worker σ ε} {step : σ → Nat → σ} {schedule : Schedule} {n : Nat}
    {threads : Int}
    (h : ∀ part ∈ schedule.order (parts ⟨0, n⟩ threads), ∀ state,
      worker part state = (part.naturals.foldl step state, none)) (state : σ) :
    run schedule ⟨0, n⟩ threads worker state =
      ((scheduled schedule n threads).foldl step state, none) := by
  rw [run_eq, runAll_foldl h, firstFailure_nil]
  rfl

/-- Once every index has been met, the slots hold the values of all indices. -/
theorem writeAll_of_perm (value : Nat → β) {slots : Array β} {is : List Nat}
    (h : is.Perm (List.range slots.size)) :
    writeAll value slots is = ((List.range slots.size).map value).toArray := by
  apply Array.ext_getElem?
  intro k
  rcases Nat.lt_or_ge k slots.size with hk | hk
  · rw [getElem?_writeAll value slots _ hk, if_pos (h.mem_iff.mpr (List.mem_range.mpr hk))]
    simp [hk]
  · rw [Array.getElem?_eq_none (by rwa [size_writeAll]),
      Array.getElem?_eq_none (by simpa using hk)]

/-- An array is there again once each of its members was written into its slot. -/
theorem writeAll_getD {α : Type} [Zero α] (target : Array α) {n : Nat} (hsize : target.size = n)
    {is : List Nat} (h : is.Perm (List.range n)) :
    writeAll (fun k => target.getD k 0) (Array.replicate n 0) is = target := by
  rw [writeAll_of_perm _ (by rwa [Array.size_replicate]), Array.size_replicate, ← hsize]
  apply Array.ext
  · simp
  · intro k hk hk'
    simp [Array.getD_eq_getD_getElem?, hk']

end Parallel

namespace Selective

/-! ## Runs in chunks -/

/-- The chunks of the parts that threads share, in the order in which the parts run. -/
def chunksOf (schedule : Schedule) (threads : Int) (n : Nat) : List (List Nat) :=
  (schedule.order (Parallel.parts ⟨0, n⟩ threads)).flatMap fun part =>
    chunks chunkSize part.naturals

/-- The chunks hold every number once. -/
theorem perm_flatten_chunksOf (schedule : Schedule) (threads : Int) (n : Nat) :
    (chunksOf schedule threads n).flatten.Perm (List.range n) := by
  have hflat : (chunksOf schedule threads n).flatten =
      Parallel.scheduled schedule n threads := by
    rw [Parallel.scheduled, chunksOf, List.flatMap_def, List.flatten_flatten, List.map_map,
      List.flatMap_def]
    refine congrArg List.flatten (List.map_congr_left fun part _ => ?_)
    exact flatten_chunks (by decide) part.naturals
  rw [hflat]
  exact Parallel.perm_range_scheduled schedule n threads

/-- Workers that go through their part chunk by chunk go through the chunks of all parts. -/
theorem run_chunks {σ ε : Type} (step : σ → List Nat → σ) (schedule : Schedule) (threads : Int)
    (n : Nat) (state : σ) :
    Parallel.run schedule ⟨0, n⟩ threads
        (fun part state => ((chunks chunkSize part.naturals).foldl step state, (none : Option ε)))
        state =
      ((chunksOf schedule threads n).foldl step state, none) := by
  rw [Parallel.run_eq, Parallel.runAll_foldl (fun _ _ _ => rfl), Parallel.firstFailure_nil]
  rfl

end Selective

end LeastSquares
