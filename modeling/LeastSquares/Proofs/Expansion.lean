/-
LeastSquares.Proofs.Expansion — a list of handles stands for all pairs of its members.

The handles of such a list are compared once, and the pairs made of them a second time. The second
look finds nothing: different handles give different pairs (`unrepeated_allPairs`). What is planned
for some pairs depends on which blocks they link and on how many they are, not on their order and
not on which member comes first (`make_itemsOf_congr`), so a list of handles does the same as any
pairs that name each two of its members once (`PairsOnce`). As all of its members are linked, a
joint matrix of any of them finds all its blocks.
-/
import LeastSquares.Proofs.Admission
import LeastSquares.Proofs.Breakdown
import LeastSquares.Proofs.Composition

namespace LeastSquares

namespace Request

/-! ## All pairs, once each -/

section AllPairs

variable {β : Type}

/-- All pairs of a list link each two of its members. -/
theorem mem_allPairs_or {xs : List β} {a b : β} :
    ((a, b) ∈ allPairs xs ∨ (b, a) ∈ allPairs xs) ↔ a ∈ xs ∧ b ∈ xs := by
  simp only [mem_allPairs]
  constructor
  · rintro (⟨i, j, -, ha, hb⟩ | ⟨i, j, -, hb, ha⟩)
    · exact ⟨List.mem_of_getElem? ha, List.mem_of_getElem? hb⟩
    · exact ⟨List.mem_of_getElem? ha, List.mem_of_getElem? hb⟩
  · rintro ⟨ha, hb⟩
    obtain ⟨i, hi⟩ := List.mem_iff_getElem?.mp ha
    obtain ⟨j, hj⟩ := List.mem_iff_getElem?.mp hb
    rcases Nat.le_total i j with hij | hji
    · exact Or.inl ⟨i, j, hij, hi, hj⟩
    · exact Or.inr ⟨j, i, hji, hj, hi⟩

/-- Where all members are different, so are all pairs of them. -/
theorem unrepeated_allPairs {xs : List β} (h : xs.Nodup) : Unrepeated id (allPairs xs) := by
  induction xs with
  | nil => exact List.Pairwise.nil
  | cons x xs ih =>
    obtain ⟨hx, hxs⟩ := List.nodup_cons.mp h
    have hrow : (x, x) :: xs.map (fun y => (x, y)) = (x :: xs).map fun y => (x, y) := rfl
    rw [Unrepeated, allPairs, hrow, List.pairwise_append, List.pairwise_map]
    refine ⟨h.imp fun {y z} hne hsame => ?_, ih hxs, ?_⟩
    · rcases hsame with ⟨-, hyz⟩ | ⟨hxz, hyx⟩
      · exact hne hyz
      · exact hne (hyx.trans hxz)
    · -- the pairs of the first row name `x`, and the later ones do not
      rintro _ hfirst ⟨c, d⟩ hlater hsame
      obtain ⟨y, -, rfl⟩ := List.mem_map.mp hfirst
      obtain ⟨hc, hd⟩ := mem_allPairs_or.mp (Or.inl hlater)
      rcases hsame with ⟨hxc, -⟩ | ⟨hxd, -⟩
      · obtain rfl : x = c := hxc
        exact hx hc
      · obtain rfl : x = d := hxd
        exact hx hd

end AllPairs

/-- Pairs of members of a list that name each two of them once, and each of them with itself, in any
order and with either member first. -/
structure PairsOnce (hs : List Int) (pairs : List (Int × Int)) : Prop where
  members : ∀ pair ∈ pairs, pair.1 ∈ hs ∧ pair.2 ∈ hs
  once : ∀ a ∈ hs, ∀ b ∈ hs, pairs.countP (fun pair => pair = (a, b) ∨ pair = (b, a)) = 1

namespace PairsOnce

variable {hs : List Int} {pairs : List (Int × Int)}

theorem mem_or_iff (h : PairsOnce hs pairs) {a b : Int} :
    ((a, b) ∈ pairs ∨ (b, a) ∈ pairs) ↔ a ∈ hs ∧ b ∈ hs := by
  constructor
  · rintro (hpair | hpair)
    · exact h.members _ hpair
    · exact (h.members _ hpair).symm
  · rintro ⟨ha, hb⟩
    have hpos : 0 < pairs.countP fun pair => pair = (a, b) ∨ pair = (b, a) := by
      rw [h.once a ha b hb]
      exact Nat.one_pos
    obtain ⟨pair, hpair, heq⟩ := List.countP_pos_iff.mp hpos
    rcases of_decide_eq_true heq with rfl | rfl
    · exact Or.inl hpair
    · exact Or.inr hpair

theorem mem_of_mem_members (h : PairsOnce hs pairs) {a : Int} (ha : a ∈ Request.members pairs) :
    a ∈ hs := by
  obtain ⟨pair, hpair, rfl | rfl⟩ := mem_members.mp ha
  · exact (h.members pair hpair).1
  · exact (h.members pair hpair).2

theorem unrepeated (h : PairsOnce hs pairs) : Unrepeated id pairs := by
  refine List.pairwise_iff_forall_sublist.mpr fun {x y} hsub hsame => ?_
  obtain ⟨a, b⟩ := x
  obtain ⟨ha, hb⟩ := h.members (a, b) (hsub.subset List.mem_cons_self)
  have hy : y = (a, b) ∨ y = (b, a) := by
    rcases hsame with ⟨h₁, h₂⟩ | ⟨h₁, h₂⟩
    · exact Or.inl (Prod.ext h₁.symm h₂.symm)
    · exact Or.inr (Prod.ext h₂.symm h₁.symm)
  have htwo : ([(a, b), y].countP fun pair => pair = (a, b) ∨ pair = (b, a)) = 2 := by
    simp [hy]
  have hle := hsub.countP_le (p := fun pair => pair = (a, b) ∨ pair = (b, a))
  rw [htwo, h.once a ha b hb] at hle
  omega

end PairsOnce

/-- Pairs that do not repeat each other and link the same are equally many. -/
theorem length_eq_of_linked {xs ys : List (Nat × Nat)} (hxs : (xs.map unordered).Nodup)
    (hys : (ys.map unordered).Nodup)
    (h : ∀ i j, ((i, j) ∈ xs ∨ (j, i) ∈ xs) ↔ ((i, j) ∈ ys ∨ (j, i) ∈ ys)) :
    xs.length = ys.length := by
  have hmem : ∀ {zs : List (Nat × Nat)} {i j : Nat},
      (i, j) ∈ zs.map unordered ↔ i ≤ j ∧ ((i, j) ∈ zs ∨ (j, i) ∈ zs) := by
    intro zs i j
    rw [List.mem_map]
    constructor
    · rintro ⟨⟨a, b⟩, hpair, heq⟩
      unfold unordered at heq
      split at heq
      · cases heq
        exact ⟨by assumption, Or.inl hpair⟩
      · cases heq
        exact ⟨by omega, Or.inr hpair⟩
    · rintro ⟨hij, hpair | hpair⟩
      · exact ⟨_, hpair, if_pos hij⟩
      · have hswap : unordered (j, i) = unordered (i, j) :=
          unordered_eq_iff.mpr (Or.inr ⟨rfl, rfl⟩)
        exact ⟨_, hpair, hswap.trans (if_pos hij)⟩
  have hperm : (xs.map unordered).Perm (ys.map unordered) := by
    refine (List.perm_ext_iff_of_nodup hxs hys).mpr ?_
    rintro ⟨i, j⟩
    rw [hmem, hmem, h]
  simpa using hperm.length_eq

end Request

namespace Covariance

open Request

/-! ## What is planned for pairs -/

section Planning

variable {α : Type} {p : Problem α} {pairs pairs' : List (Int × Int)}

/-- Pairs of handles that do not repeat each other are accepted. -/
theorem exists_accept (hknown : ∀ n ∈ members pairs, p.has (.integer n) = true)
    (hunrepeated : Unrepeated id pairs) :
    ∃ positions, Plan.accept p (itemsOf pairs) = .ok positions := by
  obtain ⟨positions, hpositions⟩ :=
    exists_mapM_both fun n hn => Problem.has_iff.mp (hknown n hn)
  rw [unrepeated_iff_of_positions hpositions, ← nodup_unordered_iff] at hunrepeated
  refine ⟨positions, ?_⟩
  rw [accept_itemsOf, hpositions]
  simp [bind, Except.bind, (checkDistinct_eq _).1 hunrepeated, Except.map]

/-- Accepted pairs do not repeat each other. -/
theorem nodup_of_accept {items : List Item} {positions : List (Nat × Nat)}
    (h : Plan.accept p items = .ok positions) : (positions.map unordered).Nodup := by
  obtain ⟨found, -, hfound⟩ := bind_eq_ok_iff.mp h
  obtain ⟨_, hdistinct, hpositions⟩ := bind_eq_ok_iff.mp hfound
  cases hpositions
  by_contra hnodup
  rw [(checkDistinct_eq _).2 hnodup] at hdistinct
  cases hdistinct

/-- Accepted pairs that link the same handles are planned in the same way. -/
theorem make_itemsOf_congr {positions positions' : List (Nat × Nat)}
    (h : Plan.accept p (itemsOf pairs) = .ok positions)
    (h' : Plan.accept p (itemsOf pairs') = .ok positions')
    (hlinked : ∀ a b, ((a, b) ∈ pairs' ∨ (b, a) ∈ pairs') ↔ ((a, b) ∈ pairs ∨ (b, a) ∈ pairs)) :
    Plan.make p (itemsOf pairs') = Plan.make p (itemsOf pairs) := by
  have hpositions : ∀ i j, ((i, j) ∈ positions' ∨ (j, i) ∈ positions') ↔
      ((i, j) ∈ positions ∨ (j, i) ∈ positions) := by
    intro i j
    rw [Plan.mem_of_accept h', Plan.mem_of_accept h, asked_itemsOf, asked_itemsOf, hlinked]
  have hlength := length_eq_of_linked (nodup_of_accept h') (nodup_of_accept h) hpositions
  have hplan : Plan.ofPairs (ColumnBounds.make p true) positions' =
      Plan.ofPairs (ColumnBounds.make p true) positions := by
    have hpattern : (Plan.ofPairs (ColumnBounds.make p true) positions').pattern =
        (Plan.ofPairs (ColumnBounds.make p true) positions).pattern :=
      Plan.pattern_congr hpositions
    rw [Plan.ofPairs, Plan.ofPairs] at hpattern ⊢
    exact congrArg (Plan.mk · _) hpattern
  simp only [Plan.make, h, h', hplan, hlength]

variable [Zero α] [One α] [Add α] [Sub α] [Neg α] [Mul α] [Div α] [NatCast α] [BEq α] [LT α]
  [DecidableLT α] [LE α] [DecidableLE α] [Elementary α]

/-- A computation depends on a request by what is planned for it. -/
theorem compute_congr {request request' : List Item} (h : Request.pairs request = .ok pairs)
    (h' : Request.pairs request' = .ok pairs')
    (hmake : Plan.make p (itemsOf pairs') = Plan.make p (itemsOf pairs)) (engine : Engine α)
    (c : Covariance α) :
    planOf p request' = planOf p request ∧
      compute engine c p request' = compute engine c p request := by
  constructor
  · simp only [planOf, h, h', hmake]
  · have hmake' : Plan.make p (pairs'.map fun pair => .list [.integer pair.1, .integer pair.2]) =
        Plan.make p (pairs.map fun pair => .list [.integer pair.1, .integer pair.2]) := hmake
    simp only [compute, h, h', hmake']

end Planning

/-! ## Lists of handles -/

section Handles

variable {hs : List Int} {request : List Item}

/-- The pairs of a list of different handles. -/
theorem pairs_of_nodup (h : request.mapM Item.handle? = some hs) (hnodup : hs.Nodup) :
    Request.pairs request = .ok (allPairs hs) := by
  simp only [Request.pairs, h, (checkDistinct_eq hs).1 hnodup]
  rfl

/-- Columns are refused for their sizes alone. -/
theorem fault_of_check {bounds : ColumnBounds} {e : Fault} (h : bounds.check = .error e) :
    e = .dimensions ∨ e = .memory := by
  unfold ColumnBounds.check Extent.check at h
  split at h
  · cases h
    exact Or.inl rfl
  · split at h
    · cases h
      exact Or.inr rfl
    · cases h

section Requests

variable {α : Type} {problem : Problem α}

/-- The pairs of different handles of blocks are accepted. -/
theorem exists_accept_allPairs (hnodup : hs.Nodup)
    (hknown : ∀ n ∈ hs, problem.has (.integer n) = true) :
    ∃ positions, Plan.accept problem (itemsOf (allPairs hs)) = .ok positions := by
  refine exists_accept (fun n hn => ?_) (unrepeated_allPairs hnodup)
  obtain ⟨⟨a, b⟩, hpair, rfl | rfl⟩ := mem_members.mp hn
  · exact hknown _ (mem_allPairs_or.mp (Or.inl hpair)).1
  · exact hknown _ (mem_allPairs_or.mp (Or.inl hpair)).2

/-- A list of different handles is planned, as long as the columns can be counted. -/
theorem planOf_of_nodup (h : request.mapM Item.handle? = some hs) (hnodup : hs.Nodup)
    (hknown : ∀ n ∈ hs, problem.has (.integer n) = true) :
    (∃ plan, planOf problem request = .ok plan) ∨
      ∃ e, (e = .dimensions ∨ e = .memory) ∧ planOf problem request = .error e := by
  obtain ⟨positions, hpositions⟩ := exists_accept_allPairs hnodup hknown
  cases hcheck : (ColumnBounds.make problem true).check with
  | ok _ => exact Or.inl ⟨_, planOf_eq (pairs_of_nodup h hnodup) hpositions rfl hcheck⟩
  | error e =>
    refine Or.inr ⟨e, fault_of_check hcheck, ?_⟩
    simp only [planOf, pairs_of_nodup h hnodup, Plan.make, hpositions, hcheck]

/-- A list of different handles asks for all blocks of any of them. -/
theorem requested_of_nodup (h : request.mapM Item.handle? = some hs) (hnodup : hs.Nodup)
    {a b : Atom} {i j : Nat} (ha : ∃ n ∈ hs, a.handle? = some n)
    (hb : ∃ n ∈ hs, b.handle? = some n) (hi : problem.position a = .ok i)
    (hj : problem.position b = .ok j) : Requested request i j := by
  have hmem : ∀ {a : Atom} {i : Nat}, (∃ n ∈ hs, a.handle? = some n) →
      problem.position a = .ok i → (i : Int) ∈ hs := by
    rintro a i ⟨n, hn, ha⟩ hi
    obtain ⟨hhandle, -⟩ := Problem.position?_eq_some_iff.mp (Problem.position_eq_ok_iff.mp hi)
    rw [ha] at hhandle
    cases hhandle
    exact hn
  exact ⟨_, pairs_of_nodup h hnodup, mem_allPairs_or.mpr ⟨hmem ha hi, hmem hb hj⟩⟩

/-- Handles of a list all of whose members are blocks have positions. -/
theorem exists_positions_of_drawn (hknown : ∀ n ∈ hs, problem.has (.integer n) = true)
    {handles : List Atom} (hdrawn : ∀ a ∈ handles, ∃ n ∈ hs, a.handle? = some n) :
    ∃ positions, handles.mapM problem.position = .ok positions := by
  refine exists_mapM_eq_ok fun a ha => ?_
  obtain ⟨n, hn, hhandle⟩ := hdrawn a ha
  obtain ⟨i, hi⟩ := Problem.has_iff.mp (hknown n hn)
  obtain ⟨rfl, hlt⟩ := position_integer.mp hi
  exact ⟨i, Problem.position_eq_ok_iff.mpr (Problem.position?_eq_some_iff.mpr ⟨hhandle, hlt⟩)⟩

end Requests

section Computing

variable {K : Type} [Field K] [LinearOrder K] [Elementary K] {engine : Engine K} {c : Covariance K}
  {problem : Problem K}

/-- Where a computation breaks off with a repetition although its request is planned, the repetition
was met by a residual block. -/
theorem jacobian_of_duplicates {plan : Plan} {groups : List (List Nat)}
    (hplan : planOf problem request = .ok plan)
    (h : (compute engine c problem request).answer = .error (.duplicates groups)) :
    (problem.jacobian engine.schedule plan.bounds c.options.applyLoss c.options.threads).answer =
      .error (.duplicates groups) := by
  cases hJ : (problem.jacobian engine.schedule plan.bounds c.options.applyLoss
      c.options.threads).answer with
  | ok J =>
    obtain ⟨hfault, -⟩ := (compute_eq_error_iff hplan hJ _).mp h
    cases hfault
  | error e =>
    rw [(compute_eq hplan engine c).1, map_eq_error_iff] at h
    by_cases hnonzeros : plan.pattern.nonzeros = 0
    · rw [fillPlan, if_pos hnonzeros] at h
      cases h
    · rw [answer_fillPlan_eq_bind engine c.options problem hnonzeros, hJ] at h
      cases h
      rfl

/-- After a list of handles was computed, a joint matrix of any of them is there. -/
theorem matrix_of_handles (h : request.mapM Item.handle? = some hs) (hnodup : hs.Nodup)
    (hknown : ∀ n ∈ hs, problem.has (.integer n) = true)
    (hsucceeds : (compute engine c problem request).answer = .ok true) {handles : List Atom}
    (hdrawn : ∀ a ∈ handles, ∃ n ∈ hs, a.handle? = some n) :
    ∃ positions, handles.mapM problem.position = .ok positions ∧
      ∀ (coordinates : Coordinates) (engine' : Engine K),
        let joint := ((compute engine c problem request).state.matrix engine' problem coordinates
          handles).answer
        joint ≠ .ok none ∧
          ((∀ k ∈ positions, coordinates.Admits (problem.blockAt k)) →
            ∃ M, joint = .ok (some M)) := by
  obtain ⟨plan, f, hplan, hf, hstate⟩ := exists_symmetric_of_compute hsucceeds
  obtain ⟨positions, hpositions⟩ := exists_positions_of_drawn hknown hdrawn
  refine ⟨positions, hpositions, fun coordinates engine' => ?_⟩
  rw [hstate]
  have hthere : ((c.holding plan (Truncation.gather f plan.pattern)).matrix engine' problem
      coordinates handles).answer ≠ .ok none :=
    matrix_ne_none_of_requested hf hplan hpositions fun a ha b hb i j hi hj =>
      requested_of_nodup h hnodup (hdrawn a ha) (hdrawn b hb) hi hj
  refine ⟨hthere, fun admits => ?_⟩
  obtain ⟨found, hjoint⟩ := exists_matrix_of_admits engine' c f hplan hpositions admits
  cases found with
  | none => exact absurd hjoint hthere
  | some M => exact ⟨M, hjoint⟩

/-- **A list of handles is all pairs of its members.** A list that repeats a handle is refused with
the positions of every handle that stands at two or more, and nothing is stored. A list of different
handles of blocks is planned, unless the columns cannot be counted, so no computation of it reports
a repetition that no residual block does. The plan, the log, the outcome and what is stored are
those of any pairs that name each two of the handles once, in any order and with either member
first. After a computation that succeeds, a joint matrix of any of the handles, in any order and as
often as one likes, is not missing in either coordinates. In tangent coordinates it is there, and in
those of the parameters it is there where the manifolds of its members are lawful. -/
theorem compute_of_handles (engine : Engine K) (c : Covariance K) (problem : Problem K)
    (h : request.mapM Item.handle? = some hs) :
    (¬ hs.Nodup → compute engine c problem request =
      { answer := .error (.duplicates
          ((hs.eraseDups.map (positionsOf hs)).filter fun group => 1 < group.length))
        state := c.forget }) ∧
    (hs.Nodup → (∀ n ∈ hs, problem.has (.integer n) = true) →
      ((∃ plan, planOf problem request = .ok plan) ∨
        ∃ e, (e = .dimensions ∨ e = .memory) ∧ planOf problem request = .error e) ∧
      (∀ groups, (compute engine c problem request).answer = .error (.duplicates groups) →
        ∃ plan, planOf problem request = .ok plan ∧
          (problem.jacobian engine.schedule plan.bounds c.options.applyLoss
            c.options.threads).answer = .error (.duplicates groups)) ∧
      (∀ other pairs, Request.pairs other = .ok pairs → PairsOnce hs pairs →
        planOf problem other = planOf problem request ∧
          compute engine c problem other = compute engine c problem request) ∧
      ((compute engine c problem request).answer = .ok true →
        ∀ handles : List Atom, (∀ a ∈ handles, ∃ n ∈ hs, a.handle? = some n) →
          ∃ positions, handles.mapM problem.position = .ok positions ∧
            ∀ (coordinates : Coordinates) (engine' : Engine K),
              let joint := ((compute engine c problem request).state.matrix engine' problem
                coordinates handles).answer
              joint ≠ .ok none ∧
                ((∀ k ∈ positions, coordinates.Admits (problem.blockAt k)) →
                  ∃ M, joint = .ok (some M)))) := by
  constructor
  · intro hrepeated
    refine compute_of_planOf_eq_error ?_ engine c
    simp only [planOf, Request.pairs, h, (checkDistinct_eq hs).2 hrepeated, repeated_eq]
    rfl
  · intro hnodup hknown
    have hplanned := planOf_of_nodup h hnodup hknown
    refine ⟨hplanned, fun groups hgroups => ?_, fun other pairs hpairs hsonce => ?_,
      fun hsucceeds handles hdrawn => ?_⟩
    · rcases hplanned with ⟨plan, hplan⟩ | ⟨e, he, hplan⟩
      · exact ⟨plan, hplan, jacobian_of_duplicates hplan hgroups⟩
      · rw [compute_of_planOf_eq_error hplan] at hgroups
        cases hgroups
        rcases he with he | he <;> cases he
    · obtain ⟨positions, hpositions⟩ := exists_accept_allPairs hnodup hknown
      obtain ⟨positions', hpositions'⟩ := exists_accept
        (fun n hn => hknown n (hsonce.mem_of_mem_members hn)) hsonce.unrepeated
      refine compute_congr (pairs_of_nodup h hnodup) hpairs
        (make_itemsOf_congr hpositions hpositions' fun a b => ?_) engine c
      rw [hsonce.mem_or_iff, mem_allPairs_or]
    · exact matrix_of_handles h hnodup hknown hsucceeds hdrawn

/-- Both blocks. -/
def bothBlocks : List Item := [.atom (.integer 0), .atom (.integer 1)]

theorem prepared_bothBlocks : Prepared Engine.exact (plain .sparseQr).options sheared bothBlocks
    (Plan.ofPairs shearedBounds [(0, 0), (0, 1), (1, 1)]) shearedJacobian where
  planned := by
    have hpairs : Request.pairs bothBlocks = .ok [(0, 0), (0, 1), (1, 1)] := by cbv
    have haccept : Plan.accept sheared (itemsOf [(0, 0), (0, 1), (1, 1)]) =
        .ok [(0, 0), (0, 1), (1, 1)] := by cbv
    exact planOf_eq hpairs haccept bounds_sheared check_sheared
  free := by
    have hpairs : Request.pairs bothBlocks = .ok (allPairs [0, 1]) :=
      pairs_of_nodup rfl (by decide)
    refine ⟨0, 0, ⟨_, hpairs, by decide⟩, ?_, ?_⟩ <;> decide
  jacobian := prepared_sheared.jacobian

theorem answer_bothBlocks :
    (compute Engine.exact (plain .sparseQr) sheared bothBlocks).answer = .ok true := by
  have hvalues : (estimateValues Engine.exact (plain .sparseQr).options shearedJacobian
      (Plan.ofPairs shearedBounds [(0, 0), (0, 1), (1, 1)]).pattern).answer =
        .ok (some #[2, -1, -1, 1]) := by cbv
  rw [prepared_bothBlocks.compute_eq.1, hvalues]
  rfl

/-- Two blocks, asked for by their handles, and by pairs in another order and the other way
round. -/
theorem compute_of_handles_sheared :
    compute Engine.exact (plain .sparseQr) sheared
        (ofPairs [(.integer 1, .integer 1), (.integer 0, .integer 0), (.integer 1, .integer 0)]) =
      compute Engine.exact (plain .sparseQr) sheared bothBlocks ∧
    ∃ M, ((compute Engine.exact (plain .sparseQr) sheared bothBlocks).state.matrix Engine.exact
      sheared .ambient [.integer 1, .integer 0, .integer 1]).answer = .ok (some M) := by
  have hhandles : bothBlocks.mapM Item.handle? = some [0, 1] := rfl
  obtain ⟨-, hplanned⟩ := compute_of_handles Engine.exact (plain .sparseQr) sheared hhandles
  obtain ⟨-, -, hothers, hmatrix⟩ := hplanned (by decide) (by decide)
  refine ⟨(hothers _ [(1, 1), (0, 0), (1, 0)] (pairs_ofPairs _) ⟨by decide, by decide⟩).2, ?_⟩
  obtain ⟨positions, hpositions, hjoint⟩ := hmatrix answer_bothBlocks
    [.integer 1, .integer 0, .integer 1] (by decide)
  have hfound : [Atom.integer 1, .integer 0, .integer 1].mapM sheared.position = .ok [1, 0, 1] := by
    cbv
  rw [hfound] at hpositions
  cases hpositions
  have hlawful : ∀ k ∈ [1, 0, 1], (sheared.blockAt k).Lawful := by
    simp only [List.forall_mem_cons]
    refine ⟨?_, ?_, ?_, fun k hk => absurd hk List.not_mem_nil⟩ <;>
      exact ParameterBlock.lawful_of_none rfl
  exact (hjoint .ambient Engine.exact).2 fun k hk _ => hlawful k hk

end Computing

end Handles

end Covariance

end LeastSquares
