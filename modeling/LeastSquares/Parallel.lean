/-
LeastSquares.Parallel — fork and join over the parts of a span.

A span is split into one part for each thread and a worker runs on every part, also when
another one fails. In which order the parts run is not determined: it is a `Schedule`, any
rearrangement of them. What the run reports is determined: of the failures, the one of the
first part.

`collect` is the run whose worker goes through the indices of its part, puts the result of each
into a memory that all workers share, and stops at the first index that fails.
-/
import LeastSquares.Span

namespace LeastSquares

/-- An order in which parts are run: each of them once. -/
structure Schedule where
  order : List Span → List Span
  perm : ∀ parts, (order parts).Perm parts

/-- The parts one after the other. -/
def Schedule.inOrder : Schedule := ⟨id, fun _ => .refl _⟩

namespace Parallel

variable {σ ε β ν : Type}

/-- What a worker makes of the state on one part, and the failure it stopped at. -/
abbrev Worker (σ ε : Type) := Span → σ → σ × Option ε

/-- The parts of a span for a number of threads; fewer than one count as one. -/
def parts (s : Span) (threads : Int) : List Span := s.split (max threads 1).toNat

/-- Run the worker on each part in turn, keeping the failure of every part that failed. -/
def runAll (worker : Worker σ ε) : List Span → σ → σ × List (Span × ε)
  | [], state => (state, [])
  | part :: rest, state =>
    match worker part state with
    | (state, failure) =>
      match runAll worker rest state with
      | (state, failures) =>
        match failure with
        | none => (state, failures)
        | some e => (state, (part, e) :: failures)

/-- The failure of the first part that failed. -/
def firstFailure (parts : List Span) (failures : List (Span × ε)) : Option ε :=
  parts.findSome? fun part => failures.lookup part

/-- Run a worker on every part of a span; report the failure of the first part that failed. -/
def run (schedule : Schedule) (s : Span) (threads : Int) (worker : Worker σ ε) (state : σ) :
    σ × Option ε :=
  let parts := parts s threads
  match runAll worker (schedule.order parts) state with
  | (state, failures) => (state, firstFailure parts failures)

/-! ## A memory for all threads -/

/-- What the threads of a run have in common: the memory they write to, and the notes they take. -/
structure Shared (σ ν : Type) where
  memory : σ
  notes : Array ν

/-- Run a task on indices in turn, up to the first one that fails, and put every result into the
memory. -/
def fill (task : Nat → List ν × Except ε β) (put : Nat → β → σ → σ) :
    List Nat → Shared σ ν → Shared σ ν × Option ε
  | [], shared => (shared, none)
  | i :: rest, ⟨memory, notes⟩ =>
    match task i with
    | (taken, .ok b) => fill task put rest ⟨put i b memory, notes ++ taken⟩
    | (taken, .error e) => (⟨memory, notes ++ taken⟩, some e)

/-- Run a task for every index below `n`. -/
def collect (schedule : Schedule) (n : Nat) (threads : Int) (task : Nat → List ν × Except ε β)
    (put : Nat → β → σ → σ) (memory : σ) : Shared σ ν × Option ε :=
  run schedule ⟨0, n⟩ threads (fun part => fill task put part.naturals) ⟨memory, #[]⟩

/-- Put a result into the slot of its index. -/
def intoSlot (i : Nat) (b : β) (slots : Array (Option β)) : Array (Option β) :=
  slots.setIfInBounds i (some b)

end Parallel

end LeastSquares
