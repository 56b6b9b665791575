/-
LeastSquares.Proofs.Dispatch — every part is run once, and the first failure is reported.

The parts of a span are not empty and lie one behind the other (`pairwise_parts`), so they stand in
the order of their starts. A run is told by its `calls`: the parts in the order in which they ran,
each with the failure that it ended in. A worker that notes its calls sees just these
(`runAll_noting`), and the failure that is reported is that of the failing call with the smallest
start (`snd_run_eq_some_iff`).

A worker may go through its part index by index (`stepwise`). When its steps touch nothing but what
belongs to their own index (`Local`), an index fails or not whatever ran before it, and what it
writes stays (`Local.snd_walk`, `Local.fst_walk`). A run on several threads then fails as one walk
over the whole span does, and where it does not fail it leaves the same memory.
-/
import Mathlib.Data.List.Nodup
import LeastSquares.Proofs.Collection

namespace LeastSquares

namespace Span

/-! ## Where the parts lie -/

theorem pairwise_indices (s : Span) : s.indices.Pairwise (· < ·) := by
  unfold indices
  rw [List.pairwise_map]
  refine List.pairwise_lt_range.imp ?_
  intro a b hab
  omega

theorem nodup_indices (s : Span) : s.indices.Nodup :=
  s.pairwise_indices.imp fun h => Int.ne_of_lt h

/-- Tiles are not empty, and none of them starts in front of the first. -/
theorem bounds_of_mem_tiles {start : Int} {base count extra : Nat} (hbase : 0 < base) {part : Span}
    (h : part ∈ tiles start base count extra) : start ≤ part.start ∧ part.start < part.stop := by
  induction count generalizing start extra with
  | zero => simp [tiles] at h
  | succ count ih =>
    rw [tiles, List.mem_cons] at h
    rcases h with rfl | h
    · dsimp only
      split <;> omega
    · have hrest := ih h
      split at hrest <;> omega

theorem pairwise_tiles (start : Int) {base : Nat} (hbase : 0 < base) (count extra : Nat) :
    (tiles start base count extra).Pairwise fun a b => a.stop ≤ b.start := by
  induction count generalizing start extra with
  | zero => exact .nil
  | succ count ih =>
    rw [tiles, List.pairwise_cons]
    exact ⟨fun part hpart => (bounds_of_mem_tiles hbase hpart).1, ih _ _⟩

/-- A span is cut into tiles that are not empty. -/
theorem split_eq_tiles (s : Span) (count : Nat) : s.split count = [] ∨
    ∃ base extra, 0 < base ∧ s.split count = tiles s.start base (min count s.size) extra := by
  rcases Nat.eq_zero_or_pos (min count s.size) with hnone | hsome
  · left
    rw [split, hnone, tiles]
  · right
    exact ⟨_, _, Nat.div_pos (Nat.min_le_right count s.size) hsome, rfl⟩

theorem start_lt_stop_of_mem_split {s part : Span} {count : Nat} (h : part ∈ s.split count) :
    part.start < part.stop := by
  rcases s.split_eq_tiles count with hnil | ⟨base, extra, hbase, htiles⟩
  · simp [hnil] at h
  · rw [htiles] at h
    exact (bounds_of_mem_tiles hbase h).2

theorem pairwise_split (s : Span) (count : Nat) :
    (s.split count).Pairwise fun a b => a.stop ≤ b.start := by
  rcases s.split_eq_tiles count with hnil | ⟨base, extra, hbase, htiles⟩
  · rw [hnil]
    exact .nil
  · rw [htiles]
    exact pairwise_tiles _ hbase _ _

end Span

namespace Parallel

variable {σ ε : Type}

theorem flatMap_indices_parts (s : Span) (threads : Int) :
    (parts s threads).flatMap Span.indices = s.indices :=
  s.flatMap_indices_split (by omega)

/-- A part is not empty and lies in the span. -/
theorem bounds_of_mem_parts {s part : Span} {threads : Int} (h : part ∈ parts s threads) :
    s.start ≤ part.start ∧ part.start < part.stop ∧ part.stop ≤ s.stop := by
  have hlt := Span.start_lt_stop_of_mem_split h
  have hmem : ∀ i ∈ part, i ∈ s := by
    intro i hi
    have hindex := List.mem_flatMap.mpr ⟨part, h, Span.mem_indices.mpr hi⟩
    rwa [flatMap_indices_parts, Span.mem_indices] at hindex
  have hfirst := hmem part.start ⟨Int.le_refl _, hlt⟩
  have hlast := hmem (part.stop - 1) ⟨by omega, by omega⟩
  simp only [Span.mem_def] at hfirst hlast
  omega

theorem partition_eq_parts (s : Span) (threads : Int) :
    s.partition (max threads 1) = .ok (parts s threads) := by
  unfold Span.partition
  rw [if_neg (by omega)]
  rfl

/-- **The parts in order.** The parts that threads share stand in the order of their starts. -/
theorem pairwise_parts (s : Span) (threads : Int) :
    (parts s threads).Pairwise fun a b => a.start < b.start := by
  refine (s.pairwise_split _).imp_of_mem ?_
  intro a b ha _ hab
  have hnonempty := Span.start_lt_stop_of_mem_split ha
  omega

theorem nodup_parts (s : Span) (threads : Int) : (parts s threads).Nodup := by
  refine (pairwise_parts s threads).imp ?_
  rintro a b hab rfl
  omega

/-- A run on threads meets the indices of the span in some order. -/
theorem perm_scheduled (schedule : Schedule) (s : Span) (threads : Int) :
    ((schedule.order (parts s threads)).flatMap Span.indices).Perm s.indices := by
  rw [← flatMap_indices_parts s threads]
  exact (schedule.perm _).flatMap_right _

/-- A single part is the whole span. -/
theorem parts_of_length_le_one {s : Span} {threads : Int} (h : (parts s threads).length ≤ 1) :
    parts s threads = if s.start < s.stop then [s] else [] := by
  have hsize : (s.size : Int) = max (s.stop - s.start) 0 := by
    simp only [Span.size]
    omega
  unfold parts Span.split at h ⊢
  rw [Span.length_tiles] at h
  split
  · have hone : min (max threads 1).toNat s.size = 1 := by omega
    rw [hone]
    simp only [Nat.div_one, Nat.mod_one, Span.tiles, Nat.lt_irrefl, if_false]
    congr 1
    obtain ⟨start, stop⟩ := s
    simp only [Span.mk.injEq, true_and] at hsize ⊢
    omega
  · have hnone : min (max threads 1).toNat s.size = 0 := by omega
    rw [hnone, Span.tiles]

/-! ## The calls of a run -/

theorem runAll_cons (worker : Worker σ ε) (part : Span) (rest : List Span) (state : σ) :
    runAll worker (part :: rest) state =
      ((runAll worker rest (worker part state).1).1,
        ((worker part state).2.map fun e => (part, e)).toList ++
          (runAll worker rest (worker part state).1).2) := by
  rw [runAll]
  cases hfailure : (worker part state).2 <;> simp [hfailure]

/-- The parts on which a worker is called, in turn, and how each call ended. -/
def calls (worker : Worker σ ε) : List Span → σ → List (Span × Option ε)
  | [], _ => []
  | part :: rest, state =>
    (part, (worker part state).2) :: calls worker rest (worker part state).1

theorem map_fst_calls (worker : Worker σ ε) (order : List Span) (state : σ) :
    (calls worker order state).map Prod.fst = order := by
  induction order generalizing state with
  | nil => rfl
  | cons part rest ih => simp [calls, ih]

/-- The same worker, noting for each of its calls the part and how the call ended. -/
def noting (worker : Worker σ ε) : Worker (σ × List (Span × Option ε)) ε :=
  fun part noted =>
    match worker part noted.1 with
    | (state, failure) => ((state, noted.2 ++ [(part, failure)]), failure)

/-- What is noted are the calls, and noting changes nothing else. -/
theorem runAll_noting (worker : Worker σ ε) (order : List Span) (state : σ)
    (noted : List (Span × Option ε)) :
    runAll (noting worker) order (state, noted) =
      (((runAll worker order state).1, noted ++ calls worker order state),
        (runAll worker order state).2) := by
  induction order generalizing state noted with
  | nil => simp [runAll, calls]
  | cons part rest ih => simp [runAll_cons, noting, calls, ih]

/-- The failures that a run keeps are those of its calls. -/
theorem snd_runAll_eq (worker : Worker σ ε) (order : List Span) (state : σ) :
    (runAll worker order state).2 =
      (calls worker order state).filterMap fun call => call.2.map fun e => (call.1, e) := by
  induction order generalizing state with
  | nil => rfl
  | cons part rest ih =>
    rw [runAll_cons, calls, List.filterMap_cons, ← ih]
    cases (worker part state).2 <;> rfl

/-- Where every part was called once, the failure that is kept for a part is that of its call. -/
theorem lookup_failures {made : List (Span × Option ε)} (once : (made.map Prod.fst).Nodup)
    (part : Span) (e : ε) :
    (made.filterMap fun call => call.2.map fun e => (call.1, e)).lookup part = some e ↔
      (part, some e) ∈ made := by
  induction made with
  | nil => simp
  | cons call made ih =>
    obtain ⟨called, failure⟩ := call
    obtain ⟨hother, hrest⟩ := List.nodup_cons.mp once
    cases failure with
    | none => simp [ih hrest]
    | some e' =>
      by_cases hpart : part = called
      · subst hpart
        have hno : (part, some e) ∉ made := fun h => hother (List.mem_map.mpr ⟨_, h, rfl⟩)
        simp [hno, eq_comm]
      · have hne : (part == called) = false := by simpa using hpart
        simp [List.lookup_cons, hne, hpart, ih hrest]

section Report

variable (schedule : Schedule) (s : Span) (threads : Int) (worker : Worker σ ε) (state : σ)

theorem run_noting : run schedule s threads (noting worker) (state, []) =
    (((run schedule s threads worker state).1,
      calls worker (schedule.order (parts s threads)) state),
        (run schedule s threads worker state).2) := by
  simp [run_eq, runAll_noting]

theorem once_calls :
    ((calls worker (schedule.order (parts s threads)) state).map Prod.fst).Nodup := by
  rw [map_fst_calls]
  exact (schedule.perm _).nodup_iff.mpr (nodup_parts s threads)

theorem mem_parts_of_mem_calls (call : Span × Option ε)
    (h : call ∈ calls worker (schedule.order (parts s threads)) state) :
    call.1 ∈ parts s threads := by
  rw [← (schedule.perm _).mem_iff,
    ← map_fst_calls worker (schedule.order (parts s threads)) state]
  exact List.mem_map_of_mem h

/-- **The failure that is reported** is that of the failing call with the smallest start. -/
theorem snd_run_eq_some_iff {e : ε} : (run schedule s threads worker state).2 = some e ↔
    ∃ part, (part, some e) ∈ calls worker (schedule.order (parts s threads)) state ∧
      ∀ call ∈ calls worker (schedule.order (parts s threads)) state,
        call.1.start < part.start → call.2 = none := by
  have hlookup := lookup_failures (once_calls schedule s threads worker state)
  have hmem := mem_parts_of_mem_calls schedule s threads worker state
  rw [run_eq, snd_runAll_eq, firstFailure,
    findSome?_eq_some_iff_of_pairwise (pairwise_parts s threads) fun a b => by omega]
  constructor
  · rintro ⟨part, -, hpart, hsmaller⟩
    refine ⟨part, (hlookup part e).mp hpart, ?_⟩
    rintro ⟨other, failure⟩ hcall hlt
    cases failure with
    | none => rfl
    | some e' =>
      have hnone := hsmaller other (hmem _ hcall) hlt
      rw [(hlookup other e').mpr hcall] at hnone
      cases hnone
  · rintro ⟨part, hcall, hsmaller⟩
    refine ⟨part, hmem _ hcall, (hlookup part e).mpr hcall, ?_⟩
    intro other _ hlt
    cases hother : List.lookup other _ with
    | none => rfl
    | some e' =>
      have hnone := hsmaller _ ((hlookup other e').mp hother) hlt
      cases hnone

/-- Nothing is reported exactly when no call failed. -/
theorem snd_run_eq_none_iff : (run schedule s threads worker state).2 = none ↔
    ∀ call ∈ calls worker (schedule.order (parts s threads)) state, call.2 = none := by
  have hlookup := lookup_failures (once_calls schedule s threads worker state)
  rw [run_eq, snd_runAll_eq, firstFailure, List.findSome?_eq_none_iff]
  constructor
  · rintro h ⟨part, failure⟩ hcall
    cases failure with
    | none => rfl
    | some e =>
      have hnone := h part (mem_parts_of_mem_calls schedule s threads worker state _ hcall)
      rw [(hlookup part e).mpr hcall] at hnone
      cases hnone
  · intro h part _
    cases hpart : List.lookup part _ with
    | none => rfl
    | some e =>
      have hnone := h _ ((hlookup part e).mp hpart)
      cases hnone

end Report

/-- A single part runs as it stands, on whatever schedule. -/
theorem run_of_length_le_one (schedule : Schedule) {s : Span} {threads : Int}
    (h : (parts s threads).length ≤ 1) (worker : Worker σ ε) (state : σ) :
    run schedule s threads worker state =
      if s.start < s.stop then worker s state else (state, none) := by
  have hparts := parts_of_length_le_one h
  have hperm := schedule.perm (parts s threads)
  rw [run_eq]
  split at hparts
  · rename_i hlt
    rw [hparts, List.perm_singleton] at hperm
    rw [hparts, hperm, runAll_cons, if_pos hlt]
    cases hfailure : (worker s state).2 <;> simp [runAll, firstFailure, Prod.ext_iff, hfailure]
  · rename_i hge
    rw [hparts, List.perm_nil] at hperm
    rw [hparts, hperm, if_neg hge]
    rfl

/-! ## Index by index -/

/-- Take the steps of some indices in turn, up to the first one that fails. -/
def walk (step : Int → σ → σ × Option ε) : List Int → σ → σ × Option ε
  | [], state => (state, none)
  | i :: rest, state =>
    match step i state with
    | (state, none) => walk step rest state
    | (state, some e) => (state, some e)

/-- The worker that takes the steps of its part. -/
def stepwise (step : Int → σ → σ × Option ε) : Worker σ ε := fun part => walk step part.indices

theorem walk_append (step : Int → σ → σ × Option ε) (is js : List Int) (state : σ) :
    walk step (is ++ js) state =
      if (walk step is state).2.isNone then walk step js (walk step is state).1
      else walk step is state := by
  induction is generalizing state with
  | nil => rfl
  | cons i is ih =>
    rw [List.cons_append, walk, walk]
    split
    · exact ih _
    · rfl

/-- Where no part fails, a run takes the steps of all parts. -/
theorem runAll_stepwise {step : Int → σ → σ × Option ε} {order : List Span} {state : σ}
    (h : (runAll (stepwise step) order state).2 = []) :
    ((runAll (stepwise step) order state).1, none) =
      walk step (order.flatMap Span.indices) state := by
  induction order generalizing state with
  | nil => rfl
  | cons part rest ih =>
    rw [runAll_cons, List.append_eq_nil_iff] at h
    obtain ⟨hpart, hrest⟩ := h
    have hnone : (walk step part.indices state).2 = none := by simpa [stepwise] using hpart
    rw [runAll_cons, List.flatMap_cons, walk_append, hnone, ih hrest]
    rfl

section Memory

variable {L V : Type} {owner : L → Option Int} {step : Int → (L → V) → (L → V) × Option ε}

/-- Steps on a memory that touch nothing but what belongs to their index: they write there only, and
what they do depends on what stands there and at the locations that belong to no index, which
nothing writes. -/
structure Local (owner : L → Option Int) (step : Int → (L → V) → (L → V) × Option ε) : Prop where
  keeps : ∀ i memory l, owner l ≠ some i → (step i memory).1 l = memory l
  reads : ∀ i memory memory', (∀ l, owner l = some i ∨ owner l = none → memory l = memory' l) →
    (step i memory).2 = (step i memory').2 ∧
      ∀ l, owner l = some i → (step i memory).1 l = (step i memory').1 l

/-- Do two memories hold the same for some indices? -/
def Agree (owner : L → Option Int) (is : List Int) (memory memory' : L → V) : Prop :=
  ∀ l, (∀ i, owner l = some i → i ∈ is) → memory l = memory' l

theorem Agree.mono {is js : List Int} {memory memory' : L → V} (h : Agree owner js memory memory')
    (hsub : ∀ i ∈ is, i ∈ js) : Agree owner is memory memory' :=
  fun l hl => h l fun i hi => hsub i (hl i hi)

namespace Local

variable (h : Local owner step) {is : List Int} {memory memory' : L → V}

include h

/-- What an index does depends on what is there for it. -/
theorem reads_of_agree (agree : Agree owner is memory memory') {i : Int} (hi : i ∈ is) :
    (step i memory).2 = (step i memory').2 ∧
      ∀ l, owner l = some i → (step i memory).1 l = (step i memory').1 l := by
  refine h.reads i memory memory' fun l hl => agree l fun j hj => ?_
  rcases hl with hl | hl
  · rw [hl] at hj
    exact Option.some.inj hj ▸ hi
  · rw [hl] at hj
    cases hj

/-- One index leaves alone what is there for others. -/
theorem agree_step {i : Int} (hi : i ∉ is) (agree : Agree owner is memory memory') :
    Agree owner is memory (step i memory').1 := by
  intro l hl
  rw [h.keeps i memory' l fun howner => hi (hl i howner)]
  exact agree l hl

theorem walk_keeps {l : L} (hl : ∀ i ∈ is, owner l ≠ some i) :
    (walk step is memory).1 l = memory l := by
  induction is generalizing memory with
  | nil => rfl
  | cons i is ih =>
    have hstep := h.keeps i memory l (hl i List.mem_cons_self)
    rw [walk]
    split
    · rename_i after hafter
      rw [ih fun j hj => hl j (List.mem_cons_of_mem _ hj), ← hstep, hafter]
    · rename_i after e hafter
      rw [← hstep, hafter]

/-- A walk leaves alone what is there for other indices. -/
theorem agree_walk {js : List Int} (hdisjoint : is.Disjoint js)
    (agree : Agree owner js memory memory') : Agree owner js memory (walk step is memory').1 := by
  intro l hl
  rw [h.walk_keeps fun i hi howner => hdisjoint hi (hl i howner)]
  exact agree l hl

/-- **The failure of a walk** is that of the first index that fails on its own. -/
theorem snd_walk (nodup : is.Nodup) (agree : Agree owner is memory memory') :
    (walk step is memory').2 = is.findSome? fun i => (step i memory).2 := by
  induction is generalizing memory' with
  | nil => rfl
  | cons i is ih =>
    obtain ⟨hi, hrest⟩ := List.nodup_cons.mp nodup
    have hfirst := (h.reads_of_agree agree List.mem_cons_self).1
    have hagree := h.agree_step hi (agree.mono fun j hj => List.mem_cons_of_mem _ hj)
    rw [walk, List.findSome?_cons, hfirst]
    split
    · rename_i after hafter
      rw [hafter] at hagree
      rw [hafter, ih hrest hagree]
    · rename_i after e hafter
      rw [hafter]

/-- **The memory that a walk leaves** when no index fails: what belongs to an index is what its own
step makes of it. -/
theorem fst_walk (nodup : is.Nodup) (agree : Agree owner is memory memory')
    (hok : (walk step is memory').2 = none) {i : Int} (hi : i ∈ is) {l : L}
    (hl : owner l = some i) : (walk step is memory').1 l = (step i memory).1 l := by
  induction is generalizing memory' with
  | nil => simp at hi
  | cons j is ih =>
    obtain ⟨hj, hrest⟩ := List.nodup_cons.mp nodup
    have hagree := h.agree_step hj (agree.mono fun k hk => List.mem_cons_of_mem _ hk)
    have hfirst := (h.reads_of_agree agree List.mem_cons_self).2
    rw [walk] at hok ⊢
    split at hok
    · rename_i after hafter
      rw [hafter] at hagree hfirst
      rcases List.mem_cons.mp hi with rfl | hi
      · -- later steps leave it alone
        rw [hfirst l hl]
        exact h.walk_keeps fun k hk howner => hj (Option.some.inj (hl.symm.trans howner) ▸ hk)
      · exact ih hrest hagree hok hi
    · cases hok

/-- The order of the indices leaves no trace. -/
theorem walk_eq_of_perm {js : List Int} (perm : is.Perm js) (nodup : is.Nodup)
    (hok : (walk step is memory).2 = none) : walk step is memory = walk step js memory := by
  have hagree : ∀ ks, Agree owner ks memory memory := fun ks l _ => rfl
  have hok' : (walk step js memory).2 = none := by
    rw [h.snd_walk nodup (hagree is), List.findSome?_eq_none_iff] at hok
    rw [h.snd_walk (perm.nodup_iff.mp nodup) (hagree js), List.findSome?_eq_none_iff]
    exact fun i hi => hok i (perm.mem_iff.mpr hi)
  refine Prod.ext (funext fun l => ?_) (hok.trans hok'.symm)
  by_cases hl : ∃ i ∈ is, owner l = some i
  · obtain ⟨i, hi, howner⟩ := hl
    rw [h.fst_walk nodup (hagree is) hok hi howner,
      h.fst_walk (perm.nodup_iff.mp nodup) (hagree js) hok' (perm.mem_iff.mp hi) howner]
  · have hno : ∀ i ∈ is, owner l ≠ some i := fun i hi howner => hl ⟨i, hi, howner⟩
    rw [h.walk_keeps hno, h.walk_keeps fun i hi => hno i (perm.mem_iff.mpr hi)]

/-- A part fails or not whatever ran before it. -/
theorem snd_runAll {order : List Span} (nodup : (order.flatMap Span.indices).Nodup)
    (agree : Agree owner (order.flatMap Span.indices) memory memory') :
    (runAll (stepwise step) order memory').2 =
      order.filterMap fun part => ((stepwise step part memory).2).map fun e => (part, e) := by
  induction order generalizing memory' with
  | nil => rfl
  | cons part rest ih =>
    rw [List.flatMap_cons] at nodup agree
    obtain ⟨hpart, hrest, hdisjoint⟩ := List.nodup_append'.mp nodup
    have hagree := agree.mono fun i hi => List.mem_append_left _ hi
    have hfirst : (stepwise step part memory').2 = (stepwise step part memory).2 :=
      (h.snd_walk hpart hagree).trans (h.snd_walk hpart fun _ _ => rfl).symm
    have hafter : Agree owner (rest.flatMap Span.indices) memory (stepwise step part memory').1 :=
      h.agree_walk hdisjoint (agree.mono fun i hi => List.mem_append_right _ hi)
    rw [runAll_cons, List.filterMap_cons, hfirst, ih hrest hafter]
    cases (stepwise step part memory).2 <;> rfl

section Runs

variable (schedule : Schedule) (s : Span) (threads : Int) (memory : L → V)

/-- **A run on threads fails** as one walk over the whole span does. -/
theorem snd_run : (run schedule s threads (stepwise step) memory).2 = (stepwise step s memory).2 := by
  have hagree : ∀ is, Agree owner is memory memory := fun is l _ => rfl
  have hpart : ∀ part, (stepwise step part memory).2 =
      part.indices.findSome? fun i => (step i memory).2 :=
    fun part => h.snd_walk part.nodup_indices (hagree _)
  have hfailures := h.snd_runAll ((perm_scheduled schedule s threads).nodup_iff.mpr s.nodup_indices)
    (hagree _)
  rw [run_eq, hfailures, firstFailure_filterMap _ (schedule.perm _), hpart s,
    ← flatMap_indices_parts s threads, findSome?_flatMap]
  exact findSome?_congr fun part _ => hpart part

/-- **A run on threads that does not fail** leaves what one walk over the whole span leaves. -/
theorem run_eq_stepwise (hok : (run schedule s threads (stepwise step) memory).2 = none) :
    run schedule s threads (stepwise step) memory = stepwise step s memory := by
  have hagree : ∀ is, Agree owner is memory memory := fun is l _ => rfl
  have hperm := perm_scheduled schedule s threads
  have hwalk := h.snd_run schedule s threads memory ▸ hok
  have hnone : (runAll (stepwise step) (schedule.order (parts s threads)) memory).2 = [] := by
    rw [snd_runAll_eq, List.filterMap_eq_nil_iff]
    intro call hcall
    rw [(snd_run_eq_none_iff schedule s threads _ memory).mp hok call hcall]
    rfl
  have hall := runAll_stepwise hnone
  rw [← h.walk_eq_of_perm hperm.symm s.nodup_indices hwalk] at hall
  have hmemory := congrArg Prod.fst hall
  exact Prod.ext hmemory (h.snd_run schedule s threads memory)

end Runs

end Local

end Memory

/-- Whatever the schedule and the number of threads, a worker is called once on each part of the
partition, also where other calls fail, and the failure of the failing part with the smallest start
is reported. A worker that goes through its part index by index and touches nothing but what belongs
to its indices fails at the smallest index that fails, and where none does leaves what it leaves when
it is called on the whole span. -/
theorem each_part_once {σ ε L V : Type} (schedule : Schedule) (s : Span) (threads : Int) :
    s.partition (max threads 1) = .ok (parts s threads) ∧
      (∀ (worker : Worker σ ε) (state : σ), ∃ made : List (Span × Option ε),
        -- a worker that notes its calls notes these
        run schedule s threads (noting worker) (state, []) =
            (((run schedule s threads worker state).1, made),
              (run schedule s threads worker state).2) ∧
          (made.map Prod.fst).Perm (parts s threads) ∧ (made.map Prod.fst).Nodup ∧
          ((run schedule s threads worker state).2 = none ↔ ∀ call ∈ made, call.2 = none) ∧
          (∀ e, (run schedule s threads worker state).2 = some e ↔
            ∃ part, (part, some e) ∈ made ∧
              ∀ call ∈ made, call.1.start < part.start → call.2 = none) ∧
          -- a single part runs as it stands
          ((parts s threads).length ≤ 1 → run schedule s threads worker state =
            if s.start < s.stop then worker s state else (state, none))) ∧
      ∀ (owner : L → Option Int) (step : Int → (L → V) → (L → V) × Option ε), Local owner step →
        ∀ memory, (run schedule s threads (stepwise step) memory).2 = (stepwise step s memory).2 ∧
          (∀ e, (run schedule s threads (stepwise step) memory).2 = some e ↔
            ∃ i ∈ s, (step i memory).2 = some e ∧
              ∀ j ∈ s, j < i → (step j memory).2 = none) ∧
          ((run schedule s threads (stepwise step) memory).2 = none →
            run schedule s threads (stepwise step) memory = stepwise step s memory) := by
  refine ⟨partition_eq_parts s threads, fun worker state => ?_, fun owner step h memory => ?_⟩
  · refine ⟨calls worker (schedule.order (parts s threads)) state,
      run_noting schedule s threads worker state, ?_,
      once_calls schedule s threads worker state,
      snd_run_eq_none_iff schedule s threads worker state,
      fun e => snd_run_eq_some_iff schedule s threads worker state,
      fun hsingle => run_of_length_le_one schedule hsingle worker state⟩
    rw [map_fst_calls]
    exact schedule.perm _
  · refine ⟨h.snd_run schedule s threads memory, fun e => ?_,
      h.run_eq_stepwise schedule s threads memory⟩
    rw [h.snd_run, stepwise, h.snd_walk s.nodup_indices fun _ _ => rfl,
      findSome?_eq_some_iff_of_pairwise s.pairwise_indices fun i j => Int.lt_asymm]
    simp only [Span.mem_indices]

/-- Add its number to the cell of an index, and fail where the cell was positive. -/
def climb (i : Int) (cells : Int → Int) : (Int → Int) × Option Int :=
  (fun l => if l = i then cells l + i else cells l, if 0 < cells i then some i else none)

theorem local_climb : Local some climb := by
  constructor
  · intro i cells l hl
    have hne : l ≠ i := fun h => hl (congrArg some h)
    simp [climb, hne]
  · intro i cells cells' h
    have hi := h i (Or.inl rfl)
    refine ⟨by simp [climb, hi], ?_⟩
    rintro l hl
    obtain rfl := Option.some.inj hl
    simp [climb, hi]

/-- Three threads that run the last part first: of the positive cells `2` and `4`, which lie in two
parts, the smaller one is reported. -/
theorem each_part_once_climb :
    Local some climb ∧
      (run ⟨List.reverse, List.reverse_perm⟩ ⟨-3, 5⟩ 3 (stepwise climb)
        fun l => if l = 2 ∨ l = 4 then 1 else 0).2 = some 2 := by
  obtain ⟨-, -, hsteps⟩ :=
    @each_part_once Unit Int Int Int ⟨List.reverse, List.reverse_perm⟩ ⟨-3, 5⟩ 3
  obtain ⟨-, hfails, -⟩ := hsteps some climb local_climb fun l => if l = 2 ∨ l = 4 then 1 else 0
  refine ⟨local_climb, (hfails 2).mpr ⟨2, by decide, rfl, ?_⟩⟩
  intro j _ hj
  have hcell : ¬ (j = 2 ∨ j = 4) := by omega
  simp [climb, hcell]

end Parallel

end LeastSquares
