/-
LeastSquares.Proofs.Stillness — a block that is held and one that cannot move are the same.

A block is constant when it is held, and also when its manifold has no directions. Both get no
columns, so nothing is planned for them, their Jacobians go nowhere, and a block of the covariance
with one of them is zero before anything is read. `Still` relates two problems that differ in blocks
alone which are constant in both, whatever makes them so. Only the zeros in tangent coordinates can
tell the two problems apart, because they have the sizes that the manifolds declare.

`holdAll` and `pinAll` are the calls that lead to such problems: hold blocks, or let them move on
manifolds without directions (`still_pinAll`).
-/
import LeastSquares.Manifold.Subset
import LeastSquares.Proofs.History
import LeastSquares.Proofs.Holding
import LeastSquares.Proofs.Inversion
import LeastSquares.Proofs.Likeness

namespace LeastSquares

namespace Problem

variable {α : Type}

/-! ## Problems that differ in constant blocks -/

/-- The second problem differs from the first one in some blocks alone, and these are constant in
both of them. -/
structure Still (S : List Nat) (p q : Problem α) : Prop where
  residuals_eq : q.residuals = p.residuals
  size_eq : q.blocks.size = p.blocks.size
  values_eq : ∀ i, (q.blockAt i).values = (p.blockAt i).values
  constant : ∀ i ∈ S, (p.blockAt i).isConstant = true ∧ (q.blockAt i).isConstant = true
  blockAt_eq : ∀ i, i ∉ S → q.blockAt i = p.blockAt i

/-- A constant block gets no columns. -/
theorem width_of_constant {p : Problem α} {i : Nat} (h : (p.blockAt i).isConstant = true)
    (tangentSpace : Bool) : ColumnBounds.width p tangentSpace i = 0 := by
  simp [ColumnBounds.width, h]

theorem size_rangeAt_of_constant {p : Problem α} {i : Nat} (h : (p.blockAt i).isConstant = true)
    (tangentSpace : Bool) : ((ColumnBounds.make p tangentSpace).rangeAt i).size = 0 := by
  rcases Nat.lt_or_ge i p.blocks.size with hi | hi
  · rw [ColumnBounds.rangeAt_make p tangentSpace hi]
    exact width_of_constant h tangentSpace
  · rw [ColumnBounds.rangeAt_of_size_le _ (by rwa [ColumnBounds.size_ranges_make])]

/-- A block without columns is not projected. -/
theorem projectionAt_of_size_eq_zero {p : Problem α} {bounds : ColumnBounds} {i : Nat}
    (h : (bounds.rangeAt i).size = 0) : p.projectionAt bounds i = .ok none := by
  unfold projectionAt
  cases (p.blockAt i).manifold with
  | none => rfl
  | some m => exact if_pos h

namespace Still

variable {S : List Nat} {p q : Problem α}

theorem aligned (h : p.Still S q) : p.Aligned q where
  residuals_eq := h.residuals_eq
  size_eq := h.size_eq
  values_eq := h.values_eq
  width_eq := by
    intro tangentSpace i
    by_cases hi : i ∈ S
    · obtain ⟨hp, hq⟩ := h.constant i hi
      rw [width_of_constant hp, width_of_constant hq]
    · have huses : q.uses i = p.uses i := by simp only [uses, h.residuals_eq]
      simp only [ColumnBounds.width, h.blockAt_eq i hi, huses]

/-- The blocks that have columns are projected alike. -/
theorem projections_eq (h : p.Still S q) (tangentSpace : Bool) :
    q.projections (ColumnBounds.make p tangentSpace) =
      p.projections (ColumnBounds.make p tangentSpace) := by
  have hsize := ColumnBounds.size_ranges_make p tangentSpace
  have hstep : q.projectionAt (ColumnBounds.make p tangentSpace) =
      p.projectionAt (ColumnBounds.make p tangentSpace) := by
    funext i
    by_cases hi : i ∈ S
    · have hzero := size_rangeAt_of_constant (h.constant i hi).1 tangentSpace
      rw [projectionAt_of_size_eq_zero hzero, projectionAt_of_size_eq_zero hzero]
    · rw [projectionAt, projectionAt, h.blockAt_eq i hi]
  rw [Problem.projections_eq hsize, Problem.projections_eq (hsize.trans h.size_eq.symm), hstep,
    h.size_eq]

end Still

/-! ## Calls that lead there -/

/-- Let a block move on a manifold. -/
def pin (p : Problem α) (handle : Atom) (m : Manifold α) : Problem α :=
  ((Edit.setManifold handle (some m)).run ((Edit.setHeld handle false).run p).state).state

/-- Let some blocks move on manifolds. -/
def pinAll (p : Problem α) (pins : List (Atom × Manifold α)) : Problem α :=
  pins.foldl (fun p pin => p.pin pin.1 pin.2) p

/-- A handle of a block with a manifold of the size of the block and without directions. -/
def Pins (p : Problem α) (pin : Atom × Manifold α) : Prop :=
  ∃ i, p.position pin.1 = .ok i ∧ pin.2.ambientSize = ((p.blockAt i).ambientSize : Int) ∧
    pin.2.tangentSize = 0

theorem pin_eq_modify {p : Problem α} {a : Atom} {m : Manifold α} {i : Nat}
    (ha : p.position a = .ok i) (hm : m.ambientSize = ((p.blockAt i).ambientSize : Int)) :
    p.pin a m = (p.modify i fun b => { b with held := false }).modify i
      fun b => b.withManifold (some m) := by
  have hfirst : ((Edit.setHeld a false).run p).state =
      p.modify i fun b => { b with held := false } := by
    rw [Edit.run, setHeld_eq, ha]
    rfl
  have hposition : (p.modify i fun b => { b with held := false }).position a = .ok i := by
    rw [← ha, position, position, position?, position?, size_modify]
  have hsize : ((p.modify i fun b => { b with held := false }).blockAt i).ambientSize =
      (p.blockAt i).ambientSize := by
    rw [blockAt_modify]
    split <;> rfl
  rw [pin, hfirst]
  simp only [Edit.run, setManifold, hposition, hsize, hm, if_true]
  rfl

/-- One block moves on a manifold, and everything else is as it was. -/
structure Pinned (p : Problem α) (i : Nat) (m : Manifold α) (q : Problem α) : Prop where
  residuals_eq : q.residuals = p.residuals
  size_eq : q.blocks.size = p.blocks.size
  values_eq : ∀ k, (q.blockAt k).values = (p.blockAt k).values
  manifold_eq : (q.blockAt i).manifold = some m
  held_eq : (q.blockAt i).held = false
  blockAt_eq : ∀ k, k ≠ i → q.blockAt k = p.blockAt k

theorem pinned_pin {p : Problem α} {a : Atom} {m : Manifold α} {i : Nat}
    (ha : p.position a = .ok i) (hm : m.ambientSize = ((p.blockAt i).ambientSize : Int)) :
    p.Pinned i m (p.pin a m) := by
  rw [pin_eq_modify ha hm]
  have hat : ∀ k, ((p.modify i fun b => { b with held := false }).modify i fun b =>
      b.withManifold (some m)).blockAt k =
        if k = i then { p.blockAt k with held := false }.withManifold (some m)
        else p.blockAt k := by
    intro k
    rw [blockAt_modify, blockAt_modify, size_modify]
    by_cases hki : k = i
    · subst hki
      simp [lt_size_of_position ha]
    · have hik : ¬ i = k := fun h => hki h.symm
      simp [hki, hik]
  refine ⟨by rw [residuals_modify, residuals_modify], by rw [size_modify, size_modify],
    fun k => ?_, ?_, ?_, fun k hk => ?_⟩
  · rw [hat]
    split <;> simp
  · rw [hat, if_pos rfl]
    exact ParameterBlock.manifold_withManifold hm
  · rw [hat, if_pos rfl, ParameterBlock.held_withManifold]
  · rw [hat, if_neg hk]

namespace Pinned

variable {p q : Problem α} {i : Nat} {m : Manifold α}

theorem position?_eq (h : p.Pinned i m q) : q.position? = p.position? := by
  funext a
  rw [position?, position?, h.size_eq]

/-- What could be pinned still can. -/
theorem pins (h : p.Pinned i m q) {pin : Atom × Manifold α} (hpin : p.Pins pin) : q.Pins pin := by
  obtain ⟨k, hk, hfits, hnone⟩ := hpin
  refine ⟨k, ?_, ?_, hnone⟩
  · rw [position_eq_ok_iff, h.position?_eq]
    exact position_eq_ok_iff.mp hk
  · rw [hfits, ParameterBlock.ambientSize, ParameterBlock.ambientSize, h.values_eq]

end Pinned

/-- The blocks that are named are left with manifolds without directions, the others as they were.
-/
theorem blockAt_pinAll {p : Problem α} {pins : List (Atom × Manifold α)}
    (h : ∀ pin ∈ pins, p.Pins pin) :
    (p.pinAll pins).residuals = p.residuals ∧ (p.pinAll pins).blocks.size = p.blocks.size ∧
      ∀ i, (i ∉ p.named (pins.map Prod.fst) → (p.pinAll pins).blockAt i = p.blockAt i) ∧
        (i ∈ p.named (pins.map Prod.fst) →
          ((p.pinAll pins).blockAt i).values = (p.blockAt i).values ∧
            ((p.pinAll pins).blockAt i).tangentSize = 0) := by
  induction pins generalizing p with
  | nil => exact ⟨rfl, rfl, fun i => ⟨fun _ => rfl, fun hi => by simp [named] at hi⟩⟩
  | cons pin rest ih =>
    obtain ⟨j, hj, hsize, hzero⟩ := h pin List.mem_cons_self
    have hpinned := pinned_pin hj hsize
    have hnamed : ∀ i, i ∈ p.named ((pin :: rest).map Prod.fst) ↔
        i = j ∨ i ∈ (p.pin pin.1 pin.2).named (rest.map Prod.fst) := by
      intro i
      rw [named, named, hpinned.position?_eq, List.map_cons, List.filterMap_cons,
        position_eq_ok_iff.mp hj, List.mem_cons]
    obtain ⟨hresiduals, hblocks, hat⟩ :=
      ih fun other hother => hpinned.pins (h other (List.mem_cons_of_mem _ hother))
    refine ⟨hresiduals.trans hpinned.residuals_eq, hblocks.trans hpinned.size_eq, fun i =>
      ⟨fun hi => ?_, fun hi => ?_⟩⟩
    · rw [hnamed, not_or] at hi
      exact ((hat i).1 hi.2).trans (hpinned.blockAt_eq i hi.1)
    · by_cases hlater : i ∈ (p.pin pin.1 pin.2).named (rest.map Prod.fst)
      · obtain ⟨hvalues, htangent⟩ := (hat i).2 hlater
        exact ⟨hvalues.trans (hpinned.values_eq i), htangent⟩
      · obtain rfl := ((hnamed i).mp hi).resolve_right hlater
        rw [show (p.pinAll (pin :: rest)).blockAt i = (p.pin pin.1 pin.2).blockAt i from
          (hat i).1 hlater]
        refine ⟨hpinned.values_eq i, ?_⟩
        simpa only [ParameterBlock.tangentSize, hpinned.manifold_eq] using hzero

/-- Blocks that are held, and the same blocks on manifolds without directions. -/
theorem still_pinAll {p : Problem α} {pins : List (Atom × Manifold α)}
    (h : ∀ pin ∈ pins, p.Pins pin) :
    (p.holdAll (pins.map Prod.fst)).Still (p.named (pins.map Prod.fst)) (p.pinAll pins) := by
  obtain ⟨hresiduals, hsize, hat⟩ := blockAt_pinAll h
  refine ⟨by rw [hresiduals, residuals_holdAll], by rw [hsize, size_holdAll], fun i => ?_,
    fun i hi => ?_, fun i hi => ?_⟩
  · rw [blockAt_holdAll]
    by_cases hi : i ∈ p.named (pins.map Prod.fst)
    · rw [((hat i).2 hi).1, if_pos hi]
    · rw [(hat i).1 hi, if_neg hi]
  · rw [blockAt_holdAll, if_pos hi]
    simp [ParameterBlock.isConstant, ((hat i).2 hi).2]
  · rw [blockAt_holdAll, if_neg hi, (hat i).1 hi]

/-! ## The same Jacobian -/

/-- The columns and the Jacobian do not tell what makes a block constant. -/
theorem Still.jacobian_eq [Zero α] [One α] [Add α] [Sub α] [Mul α] [Div α] [NatCast α] [BEq α]
    [LE α] [DecidableLE α] [Elementary α] {S : List Nat} {p q : Problem α} (h : p.Still S q)
    (tangentSpace : Bool) (schedule : Schedule) (applyLoss : Bool) (threads : Int) :
    q.jacobian schedule (ColumnBounds.make q tangentSpace) applyLoss threads =
      p.jacobian schedule (ColumnBounds.make p tangentSpace) applyLoss threads := by
  rw [h.aligned.make_eq]
  exact h.aligned.jacobian_eq (h.projections_eq tangentSpace) schedule applyLoss threads

end Problem

namespace Covariance

/-! ## The same answers -/

section Asking

variable {α : Type} [Zero α] [One α] [Add α] [Mul α] [Div α] [NatCast α] {S : List Nat}
  {p q : Problem α} {request : List Item} {plan : Plan}

/-- Does a handle name none of some blocks? -/
def Avoids (p : Problem α) (S : List Nat) (a : Atom) : Prop := ∀ i ∈ S, p.position a ≠ .ok i

/-- A block of the covariance is zero where one of its blocks is constant, and its size depends on
the blocks alone. -/
theorem blockIn_of_constant (hplan : planOf p request = .ok plan) (values : Array α)
    (coordinates : Coordinates) {a b : Atom} {i j : Nat} (ha : p.position a = .ok i)
    (hb : p.position b = .ok j)
    (hconstant : (p.blockAt i).isConstant = true ∨ (p.blockAt j).isConstant = true) :
    blockIn plan values p coordinates a b =
      reply (.ok (some (coordinates.zeros (p.blockAt i) (p.blockAt j)))) := by
  have hwidth : ∀ {k : Nat}, (p.blockAt k).isConstant = true → plan.bounds.widthAt k = 0 := by
    intro k hk
    rw [bounds_of_planOf hplan, ColumnBounds.widthAt, ColumnRange.width,
      Problem.size_rangeAt_of_constant hk]
    rfl
  have hzero : isZero plan.bounds a b = .ok true := by
    rw [isZero_eq (regular_of_planOf hplan).2.1 ha hb (lt_ranges_of_position hplan ha)
      (lt_ranges_of_position hplan hb), Except.ok.injEq, decide_eq_true_eq]
    exact hconstant.imp hwidth hwidth
  simp only [blockIn, ha, hb, hzero]

/-- The answer about two blocks that are not constant, or whose zeros are the same, is the same. -/
theorem blockIn_eq_of_still (h : p.Still S q) (hplan : planOf p request = .ok plan)
    (values : Array α) {coordinates : Coordinates} {a b : Atom}
    (hzeros : coordinates = .ambient ∨ Avoids p S a ∧ Avoids p S b) :
    blockIn plan values q coordinates a b = blockIn plan values p coordinates a b := by
  cases ha : p.position a with
  | error e => simp only [blockIn, h.aligned.position_eq, ha]
  | ok i =>
    cases hb : p.position b with
    | error e => simp only [blockIn, h.aligned.position_eq, ha, hb]
    | ok j =>
      by_cases hij : i ∈ S ∨ j ∈ S
      · have hambient : coordinates = .ambient := by
          refine hzeros.resolve_right fun havoids => ?_
          rcases hij with hi | hj
          · exact havoids.1 i hi ha
          · exact havoids.2 j hj hb
        subst hambient
        have ha' : q.position a = .ok i := by rw [h.aligned.position_eq, ha]
        have hb' : q.position b = .ok j := by rw [h.aligned.position_eq, hb]
        have hplan' : planOf q request = .ok plan := by
          simp only [← hplan, planOf, h.aligned.plan_eq]
        rw [blockIn_of_constant hplan values .ambient ha hb
            (hij.imp (fun hi => (h.constant i hi).1) fun hj => (h.constant j hj).1),
          blockIn_of_constant hplan' values .ambient ha' hb'
            (hij.imp (fun hi => (h.constant i hi).2) fun hj => (h.constant j hj).2)]
        simp only [Coordinates.zeros, Coordinates.size, h.aligned.ambientSize_eq]
      · rw [not_or] at hij
        simp only [blockIn, h.aligned.position_eq, ha, hb, h.blockAt_eq i hij.1,
          h.blockAt_eq j hij.2]

theorem matrixIn_eq_of_still (h : p.Still S q) (hplan : planOf p request = .ok plan)
    (schedule : Schedule) (threads : Int) (values : Array α) {coordinates : Coordinates}
    {handles : List Atom} (hzeros : coordinates = .ambient ∨ ∀ a ∈ handles, Avoids p S a) :
    matrixIn schedule threads plan values q coordinates handles =
      matrixIn schedule threads plan values p coordinates handles := by
  have hnull : Avoids p S .null := fun i _ hi => by cases hi
  have havoids : coordinates = .ambient ∨ ∀ a ∈ .null :: handles, Avoids p S a :=
    hzeros.imp_right fun hall => by simpa [hnull] using hall
  refine matrixIn_congr h.aligned (fun a ha b hb => ?_) (fun a ha i hi => ?_) schedule threads
  · exact blockIn_eq_of_still h hplan values
      (havoids.imp_right fun hall => ⟨hall a ha, hall b hb⟩)
  · rcases hzeros with rfl | hall
    · exact congrArg Int.ofNat (h.aligned.ambientSize_eq i)
    · rw [h.blockAt_eq i fun hmem => hall a ha i hmem hi]

end Asking

/-! ## Held or pinned -/

section Computing

variable {α : Type} [Zero α] [One α] [Add α] [Sub α] [Neg α] [Mul α] [Div α] [NatCast α]
  [BEq α] [LT α] [DecidableLT α] [LE α] [DecidableLE α] [Elementary α]

/-- **Held blocks and blocks that cannot move are the same.** Hold some blocks constant, whatever
their manifolds are, or let them move on manifolds of their sizes that have no directions. The
columns, the Jacobian, the plan and the computation with what it stores and logs are the same,
whatever the request, the options and the engine are. So are all answers in the coordinates of the
parameters, and a block with one of these blocks is zero there, of the sizes of the two blocks. In
tangent coordinates the answers are the same about the other blocks. -/
theorem held_eq_pinned {p : Problem α} {pins : List (Atom × Manifold α)}
    (h : ∀ pin ∈ pins, p.Pins pin) :
    let held := p.holdAll (pins.map Prod.fst)
    let pinned := p.pinAll pins
    let S := p.named (pins.map Prod.fst)
    (∀ tangentSpace, ColumnBounds.make pinned tangentSpace = ColumnBounds.make held tangentSpace) ∧
    (∀ tangentSpace schedule applyLoss threads,
      pinned.jacobian schedule (ColumnBounds.make pinned tangentSpace) applyLoss threads =
        held.jacobian schedule (ColumnBounds.make held tangentSpace) applyLoss threads) ∧
    (∀ items, Plan.make pinned items = Plan.make held items) ∧
    ∀ (engine : Engine α) (c : Covariance α) (request : List Item),
      compute engine c pinned request = compute engine c held request ∧
      let after := (compute engine c held request).state
      (∀ a b, after.block pinned .ambient a b = after.block held .ambient a b) ∧
      (∀ (engine' : Engine α) handles,
        after.matrix engine' pinned .ambient handles =
          after.matrix engine' held .ambient handles) ∧
      ((compute engine c held request).answer = .ok true → ∀ a b i j,
        p.position a = .ok i → p.position b = .ok j → i ∈ S ∨ j ∈ S →
          after.block held .ambient a b =
            reply (.ok (some (Dense.zeros (p.blockAt i).ambientSize (p.blockAt j).ambientSize)))) ∧
      (∀ a b, Avoids p S a → Avoids p S b →
        after.block pinned .tangent a b = after.block held .tangent a b) ∧
      ∀ (engine' : Engine α) handles, (∀ a ∈ handles, Avoids p S a) →
        after.matrix engine' pinned .tangent handles =
          after.matrix engine' held .tangent handles := by
  intro held pinned S
  have hstill : held.Still S pinned := Problem.still_pinAll h
  have hposition : held.position = p.position := by
    funext a
    simp only [held, Problem.position, Problem.position?, Problem.size_holdAll]
  have havoids : ∀ {a}, Avoids p S a → Avoids held S a := by
    intro a ha i hi
    rw [hposition]
    exact ha i hi
  refine ⟨hstill.aligned.make_eq, hstill.jacobian_eq, hstill.aligned.plan_eq,
    fun engine c request => ?_⟩
  have hcompute : compute engine c pinned request = compute engine c held request := by
    refine compute_eq_of_aligned hstill.aligned (fun schedule applyLoss threads => ?_) engine c
      request
    exact hstill.aligned.jacobian_eq (hstill.projections_eq true) schedule applyLoss threads
  refine ⟨hcompute, fun a b => ?_, fun engine' handles => ?_, fun htrue a b i j ha hb hij => ?_,
    fun a b ha hb => ?_, fun engine' handles hall => ?_⟩
  · exact whenReady_congr fun plan values hready =>
      blockIn_eq_of_still hstill (planned_of_ready hready).1 values (Or.inl rfl)
  · exact whenReady_congr fun plan values hready =>
      matrixIn_eq_of_still hstill (planned_of_ready hready).1 _ _ values (Or.inl rfl)
  · obtain ⟨plan, values, hplan, -, hstate⟩ := exists_of_compute htrue
    rw [← hposition] at ha hb
    have hzero := blockIn_of_constant hplan values .ambient ha hb
      (hij.imp (fun hi => (hstill.constant i hi).1) fun hj => (hstill.constant j hj).1)
    have hsize : ∀ k, (held.blockAt k).ambientSize = (p.blockAt k).ambientSize := by
      intro k
      rw [Problem.blockAt_holdAll]
      split <;> rfl
    rw [hstate, block, whenReady, if_pos rfl]
    refine hzero.trans ?_
    rw [Coordinates.zeros, Coordinates.size, Coordinates.size, hsize, hsize]
    rfl
  · exact whenReady_congr fun plan values hready =>
      blockIn_eq_of_still hstill (planned_of_ready hready).1 values
        (Or.inr ⟨havoids ha, havoids hb⟩)
  · exact whenReady_congr fun plan values hready =>
      matrixIn_eq_of_still hstill (planned_of_ready hready).1 _ _ values
        (Or.inr fun a ha => havoids (hall a ha))

end Computing

/-! ## A number that cannot move -/

/-- A manifold of some parameters none of which can move. -/
def motionless (size : Nat) : Manifold ℚ := .ofSubset
  { size := size
    constants := List.range size
    nodup := List.nodup_range
    lt_size := fun _ hi => Int.ofNat_lt.mpr (List.mem_range.mp hi) }

/-- The block of the residuals `x + y` and `y` that is left when `x` stays. -/
def leftRequest : List Item := [.list [.integer 1, .integer 1]]

def leftPlan : Plan := Plan.ofPairs ⟨#[⟨0, 0⟩, ⟨0, 1⟩], 1, true⟩ [(1, 1)]

theorem answer_held : (compute Engine.exact (plain .sparseQr) (sheared.holdAll [.integer 0])
    leftRequest).answer = .ok true := by
  have hplan : planOf (sheared.holdAll [.integer 0]) leftRequest = .ok leftPlan := by
    have hpairs : Request.pairs leftRequest = .ok [(1, 1)] := by cbv
    have haccept : Plan.accept (sheared.holdAll [.integer 0]) (itemsOf [(1, 1)]) =
        .ok [(1, 1)] := by cbv
    have hbounds : ColumnBounds.make (sheared.holdAll [.integer 0]) true =
        ⟨#[⟨0, 0⟩, ⟨0, 1⟩], 1, true⟩ := by cbv
    refine planOf_eq hpairs haccept hbounds ?_
    simp [ColumnBounds.check, Extent.check, Extent.bytes, Extent.maxBytes]
  have hfilled : (fillPlan Engine.exact (plain .sparseQr).options (sheared.holdAll [.integer 0])
      leftPlan).answer = .ok (some #[1 / 2]) := by cbv
  rw [(compute_eq hplan _ _).1, hfilled]
  rfl

/-- Where `x` cannot move, the covariance of `x` and `y` is zero. -/
theorem held_eq_pinned_sheared :
    let pinned := sheared.pinAll [(.integer 0, motionless 1)]
    let after := (compute Engine.exact (plain .sparseQr) pinned leftRequest).state
    after.block pinned .ambient (.integer 0) (.integer 1) =
      reply (.ok (some (Dense.zeros 1 1))) := by
  have hpins : ∀ pin ∈ [(Atom.integer 0, motionless 1)], sheared.Pins pin := by
    intro pin hpin
    rw [List.mem_singleton.mp hpin]
    exact ⟨0, by cbv, by cbv, by cbv⟩
  obtain ⟨-, -, -, hcomputed⟩ := held_eq_pinned hpins
  obtain ⟨hsame, hblock, -, hzero, -⟩ := hcomputed Engine.exact (plain .sparseQr) leftRequest
  intro pinned after
  have hafter := hzero answer_held (.integer 0) (.integer 1) 0 1 (by cbv) (by cbv)
    (Or.inl (by decide))
  rw [← hblock] at hafter
  unfold after pinned
  rw [hsame]
  exact hafter

end Covariance

end LeastSquares
