/-
LeastSquares.Proofs.Editing — the problems that callers can make.

An `Edit` is a call of one of the operations on a problem, and `run` carries it out. The `Reachable`
problems are those that calls lead to from the empty one, calls that were refused among them.

Every reachable problem is `Sound` (`Reachable.sound`): a residual block names blocks that exist, at
least one and none of them twice, by handles that stand for them. One step lemma for each kind of
change says that it keeps a problem sound (`Sound.modify`, `Sound.pushBlock`, `Sound.addResidual`),
`Sound.run` puts them together. That a manifold has the size of its block needs no step: a
parameter block carries the proof.
-/
import LeastSquares.Problem
import LeastSquares.Proofs.Traversal

namespace LeastSquares

/-- A call of an operation on a problem. -/
inductive Edit (α : Type) where
  | addBlock (values : Array α) (manifold : Option (Manifold α))
  | addResidual (handles : List Atom) (cost : Cost α)
  | setManifold (handle : Atom) (manifold : Option (Manifold α))
  | setHeld (handle : Atom) (held : Bool)

namespace Edit

variable {α : Type}

/-- A change that is refused leaves the problem. -/
def orKeep (p : Problem α) : Except Fault (Problem α) → Outcome (Problem α) (Option Nat)
  | .ok q => { answer := .ok none, state := q }
  | .error e => { answer := .error e, state := p }

/-- Carry out a call; what is added is answered by its handle or its index. -/
def run (p : Problem α) : Edit α → Outcome (Problem α) (Option Nat)
  | .addBlock values manifold => (p.addBlock values manifold).mapAnswer some
  | .addResidual handles cost => (p.addResidual handles cost).mapAnswer some
  | .setManifold handle manifold => orKeep p (p.setManifold handle manifold)
  | .setHeld handle held => orKeep p (p.setHeld handle held)

end Edit

namespace Problem

variable {α : Type}

/-- The problems that calls lead to, whether they were accepted or refused. -/
inductive Reachable : Problem α → Prop
  | empty : Reachable Problem.empty
  | run {p : Problem α} (edit : Edit α) (h : Reachable p) : Reachable (edit.run p).state

/-- Residual blocks use existing blocks. -/
structure Sound (p : Problem α) : Prop where
  nonempty : ∀ r ∈ p.residuals, r.blocks ≠ []
  nodup : ∀ r ∈ p.residuals, r.blocks.Nodup
  named : ∀ r ∈ p.residuals, r.handles.map p.position? = r.blocks.map some

/-! ## Positions -/

/-- A handle names the position that it spells. -/
theorem position?_eq_some_iff {p : Problem α} {a : Atom} {i : Nat} :
    p.position? a = some i ↔ a.handle? = some (i : Int) ∧ i < p.blocks.size := by
  unfold position?
  cases a.handle? with
  | none => simp
  | some n =>
    simp only [Option.some.injEq]
    split
    · rw [Option.some.injEq]
      omega
    · simp only [reduceCtorEq, false_iff]
      omega

theorem lt_size_of_position? {p : Problem α} {a : Atom} {i : Nat} (h : p.position? a = some i) :
    i < p.blocks.size := (position?_eq_some_iff.mp h).2

/-- A handle keeps its meaning when blocks are added. -/
theorem position?_of_le {p q : Problem α} (h : p.blocks.size ≤ q.blocks.size) {a : Atom} {i : Nat}
    (ha : p.position? a = some i) : q.position? a = some i := by
  obtain ⟨hhandle, hlt⟩ := position?_eq_some_iff.mp ha
  exact position?_eq_some_iff.mpr ⟨hhandle, Nat.lt_of_lt_of_le hlt h⟩

/-- Handles of one block are equal by value. -/
theorem key_of_position? {p : Problem α} {a : Atom} {i : Nat} (h : p.position? a = some i) :
    a.key = .whole i := by
  have hhandle := (position?_eq_some_iff.mp h).1
  cases a with
  | integer n => exact congrArg Atom.Key.whole (Option.some.inj hhandle)
  | truth b => exact congrArg Atom.Key.whole (Option.some.inj hhandle)
  | null => cases hhandle
  | float x => cases hhandle
  | text s => cases hhandle

theorem position_eq_ok_iff {p : Problem α} {a : Atom} {i : Nat} :
    p.position a = .ok i ↔ p.position? a = some i := by
  unfold position
  cases p.position? a with
  | none => simp
  | some j => simp

theorem lt_size_of_position {p : Problem α} {a : Atom} {i : Nat} (h : p.position a = .ok i) :
    i < p.blocks.size :=
  lt_size_of_position? (position_eq_ok_iff.mp h)

/-- Positions that a traversal of handles finds are those that the handles name. -/
theorem map_position?_of_mapM {p : Problem α} {handles : List Atom} {blocks : List Nat}
    (h : handles.mapM p.position = .ok blocks) : handles.map p.position? = blocks.map some := by
  have hmap := mapM_eq_ok_iff.mp h
  induction handles generalizing blocks with
  | nil =>
    cases blocks with
    | nil => rfl
    | cons i blocks => cases hmap
  | cons a handles ih =>
    cases blocks with
    | nil => cases hmap
    | cons i blocks =>
      rw [List.map_cons, List.map_cons, List.cons.injEq] at hmap ⊢
      exact ⟨position_eq_ok_iff.mp hmap.1, ih (mapM_eq_ok_iff.mpr hmap.2) hmap.2⟩

/-! ## Changed blocks -/

/-- The problem with one of its blocks changed. -/
def modify (p : Problem α) (i : Nat) (f : ParameterBlock α → ParameterBlock α) : Problem α :=
  { p with blocks := p.blocks.modify i f }

@[simp] theorem size_modify (p : Problem α) (i : Nat) (f : ParameterBlock α → ParameterBlock α) :
    (p.modify i f).blocks.size = p.blocks.size := by
  simp [modify]

@[simp] theorem residuals_modify (p : Problem α) (i : Nat)
    (f : ParameterBlock α → ParameterBlock α) : (p.modify i f).residuals = p.residuals := rfl

theorem blockAt_modify (p : Problem α) (i j : Nat) (f : ParameterBlock α → ParameterBlock α) :
    (p.modify i f).blockAt j =
      if i = j ∧ j < p.blocks.size then f (p.blockAt j) else p.blockAt j := by
  simp only [blockAt, modify, Array.getD_eq_getD_getElem?, Array.getElem?_modify]
  rcases Nat.lt_or_ge j p.blocks.size with hj | hj
  · by_cases hi : i = j <;> simp [hi, hj]
  · simp [Nat.not_lt.mpr hj]

theorem setHeld_eq (p : Problem α) (handle : Atom) (held : Bool) :
    p.setHeld handle held =
      (p.position handle).map fun i => p.modify i fun b => { b with held := held } := by
  unfold setHeld
  cases p.position handle with
  | error e => rfl
  | ok i => rfl

/-- A manifold is set where the handle names a block of its ambient size. -/
theorem setManifold_eq_ok {p q : Problem α} {handle : Atom} {manifold : Option (Manifold α)}
    (h : p.setManifold handle manifold = .ok q) :
    ∃ i, p.position handle = .ok i ∧ q = p.modify i (fun b => b.withManifold manifold) ∧
      ∀ m, manifold = some m → m.ambientSize = ((p.blockAt i).ambientSize : Int) := by
  unfold setManifold at h
  cases hi : p.position handle with
  | error e => simp [hi] at h
  | ok i =>
    cases manifold with
    | none =>
      simp only [hi, Except.ok.injEq] at h
      exact ⟨i, rfl, h.symm, fun m hm => by cases hm⟩
    | some m =>
      simp only [hi] at h
      split at h
      · rename_i hsize
        cases h
        exact ⟨i, rfl, rfl, fun m' hm => by cases hm; exact hsize⟩
      · cases h

/-! ## Added blocks -/

@[simp] theorem size_pushBlock (p : Problem α) (values : Array α) :
    (p.pushBlock values).blocks.size = p.blocks.size + 1 := by
  simp [pushBlock]

@[simp] theorem residuals_pushBlock (p : Problem α) (values : Array α) :
    (p.pushBlock values).residuals = p.residuals := rfl

theorem blockAt_pushBlock (p : Problem α) (values : Array α) (j : Nat) :
    (p.pushBlock values).blockAt j =
      if j = p.blocks.size then { values := values } else p.blockAt j := by
  simp only [blockAt, pushBlock, Array.getD_eq_getD_getElem?, Array.getElem?_push]
  split <;> rfl

/-- Behind the last block there is a block of nothing. -/
theorem blockAt_of_size_le (p : Problem α) {j : Nat} (h : p.blocks.size ≤ j) :
    p.blockAt j = { values := #[] } := by
  simp [blockAt, Array.getD_eq_getD_getElem?, h]

/-- A new block takes a manifold of its own size. -/
theorem addBlock_some (p : Problem α) (values : Array α) (m : Manifold α) :
    p.addBlock values (some m) =
      if m.ambientSize = (values.size : Int) then
        { answer := .ok p.blocks.size
          state := (p.pushBlock values).modify p.blocks.size
            fun b => b.withManifold (some m) }
      else
        { answer := .error (.manifoldSize m.ambientSize (.integer p.blocks.size) values.size)
          state := p.pushBlock values } := by
  have hposition : (p.pushBlock values).position (.integer p.blocks.size) =
      .ok p.blocks.size := by
    rw [position_eq_ok_iff, position?_integer]
    simp
  have hblock : (p.pushBlock values).blockAt p.blocks.size = { values := values } := by
    rw [blockAt_pushBlock, if_pos rfl]
  have hambient : ((p.pushBlock values).blockAt p.blocks.size).ambientSize = values.size := by
    rw [hblock]
    rfl
  unfold addBlock setManifold
  simp only [hposition, hambient]
  by_cases hsize : m.ambientSize = (values.size : Int)
  · simp only [if_pos hsize]
    rfl
  · simp only [if_neg hsize]

/-- What a residual block that is added consists of. -/
theorem addResidual_eq_ok {p : Problem α} {handles : List Atom} {cost : Cost α} {n : Nat}
    (h : (p.addResidual handles cost).answer = .ok n) :
    ∃ blocks, handles ≠ [] ∧ (handles.map Atom.key).Nodup ∧ handles.mapM p.position = .ok blocks ∧
      (p.addResidual handles cost).state =
        { p with residuals := p.residuals.push ⟨blocks, handles, cost⟩ } := by
  unfold addResidual at h ⊢
  by_cases hempty : handles.isEmpty = true
  · simp [hempty] at h
  · by_cases hdistinct : (handles.map Atom.key).Nodup
    · cases hblocks : handles.mapM p.position with
      | error e => simp [hempty, hdistinct, hblocks] at h
      | ok blocks =>
        refine ⟨blocks, by simpa using hempty, hdistinct, rfl, ?_⟩
        simp [hempty, hdistinct]
    · simp [hempty, hdistinct] at h

/-- A residual block that is refused is not added. -/
theorem state_addResidual_of_error {p : Problem α} {handles : List Atom} {cost : Cost α}
    {e : Fault} (h : (p.addResidual handles cost).answer = .error e) :
    (p.addResidual handles cost).state = p := by
  unfold addResidual at h ⊢
  split
  · rfl
  · rename_i hempty
    rw [if_neg hempty] at h
    split
    · rfl
    · rename_i hdistinct
      rw [if_neg hdistinct] at h
      split
      · rfl
      · rename_i blocks hblocks
        simp [hblocks] at h

/-! ## Sound problems -/

namespace Sound

variable {p : Problem α}

/-- A residual block uses blocks of the problem. -/
theorem lt_size (s : p.Sound) {r : ResidualBlock α} (hr : r ∈ p.residuals) {i : Nat}
    (hi : i ∈ r.blocks) : i < p.blocks.size := by
  have hmem : some i ∈ r.handles.map p.position? := by
    rw [s.named r hr]
    exact List.mem_map.mpr ⟨i, hi, rfl⟩
  obtain ⟨a, -, ha⟩ := List.mem_map.mp hmem
  exact lt_size_of_position? ha

theorem empty : (Problem.empty : Problem α).Sound where
  nonempty := by simp [Problem.empty]
  nodup := by simp [Problem.empty]
  named := by simp [Problem.empty]

/-- Residual blocks stay what they are while blocks are only added. -/
theorem named_of_le (s : p.Sound) {q : Problem α} (h : p.blocks.size ≤ q.blocks.size)
    {r : ResidualBlock α} (hr : r ∈ p.residuals) :
    r.handles.map q.position? = r.blocks.map some := by
  have hnamed := s.named r hr
  rw [← hnamed]
  refine List.map_congr_left fun a ha => ?_
  have hmem : p.position? a ∈ r.blocks.map some := by
    rw [← hnamed]
    exact List.mem_map.mpr ⟨a, ha, rfl⟩
  obtain ⟨i, -, hi⟩ := List.mem_map.mp hmem
  rw [← hi, position?_of_le h hi.symm]

/-- Changing a block keeps a problem sound. -/
theorem modify (s : p.Sound) (i : Nat) (f : ParameterBlock α → ParameterBlock α) :
    (p.modify i f).Sound where
  nonempty := s.nonempty
  nodup := s.nodup
  named := fun _ hr => s.named_of_le (Nat.le_of_eq (size_modify p i f).symm) hr

theorem pushBlock (s : p.Sound) (values : Array α) : (p.pushBlock values).Sound where
  nonempty := s.nonempty
  nodup := s.nodup
  named := fun _ hr => s.named_of_le (by simp) hr

/-- Handles that differ by value name different blocks. -/
theorem addResidual (s : p.Sound) {handles : List Atom} {cost : Cost α} {n : Nat}
    (h : (p.addResidual handles cost).answer = .ok n) :
    (p.addResidual handles cost).state.Sound := by
  obtain ⟨blocks, hne, hdistinct, hblocks, hstate⟩ := addResidual_eq_ok h
  have hnamed := map_position?_of_mapM hblocks
  have hkeys : handles.map Atom.key = blocks.map fun (i : Nat) => Atom.Key.whole (i : Int) := by
    apply List.ext_getElem?
    intro k
    have hk := congrArg (fun l => l[k]?) hnamed
    simp only [List.getElem?_map] at hk ⊢
    cases ha : handles[k]? with
    | none =>
      rw [ha, Option.map_none] at hk
      cases hi : blocks[k]? with
      | none => rfl
      | some i => simp [hi] at hk
    | some a =>
      rw [ha, Option.map_some] at hk
      cases hi : blocks[k]? with
      | none => simp [hi] at hk
      | some i =>
        rw [hi, Option.map_some, Option.some.injEq] at hk
        rw [Option.map_some, Option.map_some, key_of_position? hk]
  rw [hstate]
  refine ⟨?_, ?_, ?_⟩
  · intro r hr
    rcases Array.mem_push.mp hr with hr | rfl
    · exact s.nonempty r hr
    · intro hnil
      have hnil : blocks = [] := hnil
      rw [hnil, List.map_nil, List.map_eq_nil_iff] at hnamed
      exact hne hnamed
  · intro r hr
    rcases Array.mem_push.mp hr with hr | rfl
    · exact s.nodup r hr
    · rw [hkeys] at hdistinct
      exact (List.pairwise_map.mp hdistinct).imp fun hne heq => hne (by rw [heq])
  · intro r hr
    rcases Array.mem_push.mp hr with hr | rfl
    · exact s.named r hr
    · exact hnamed

/-- A call leaves a sound problem, also where it is refused. -/
theorem run (s : p.Sound) (edit : Edit α) : (edit.run p).state.Sound := by
  cases edit with
  | addBlock values manifold =>
    cases manifold with
    | none => exact s.pushBlock values
    | some m =>
      simp only [Edit.run, addBlock_some, Outcome.mapAnswer]
      split
      · exact (s.pushBlock values).modify p.blocks.size _
      · exact s.pushBlock values
  | addResidual handles cost =>
    show (p.addResidual handles cost).state.Sound
    cases h : (p.addResidual handles cost).answer with
    | error e =>
      rw [state_addResidual_of_error h]
      exact s
    | ok n => exact s.addResidual h
  | setManifold handle manifold =>
    simp only [Edit.run]
    cases h : p.setManifold handle manifold with
    | error e => exact s
    | ok q =>
      obtain ⟨i, -, rfl, -⟩ := setManifold_eq_ok h
      exact s.modify i _
  | setHeld handle held =>
    simp only [Edit.run, setHeld_eq]
    cases p.position handle with
    | error e => exact s
    | ok i => exact s.modify i _

end Sound

/-- **Reachable problems are sound.** -/
theorem Reachable.sound {p : Problem α} (h : p.Reachable) : p.Sound := by
  induction h with
  | empty => exact Sound.empty
  | run edit _ ih => exact ih.run edit

end Problem

end LeastSquares
