/-
LeastSquares.Proofs.Admission — which requests of pairs are planned, and how the others are refused.

The members of a pair lose their fractions before anybody asks whether they are handles. So a pair is
planned that no block query would accept: what has to be a handle is not the member but the whole
number next to it in the direction of zero (`Problem.Names`), and pairs repeat each other when these
numbers do. A number that is not finite has no such number, and is refused by another fault than an
unknown block is. `admission_of_plain` says for which requests none of this can be noticed.

The stages come one after the other for the whole request: all members are made whole, then all of
them are looked up, then repetitions are looked for (`planOf_pairs`), and what one stage refuses no
later one sees. Nothing but the number of blocks has been read by then.
-/
import LeastSquares.Proofs.Editing
import LeastSquares.Proofs.Grouping
import LeastSquares.Proofs.History

namespace LeastSquares

namespace Request

/-! ## Pairs and their members -/

section Pairs

variable {β γ δ : Type}

/-- The members of some pairs, in order. -/
def members (pairs : List (β × β)) : List β := pairs.flatMap fun pair => [pair.1, pair.2]

theorem mem_members {pairs : List (β × β)} {a : β} :
    a ∈ members pairs ↔ ∃ pair ∈ pairs, a = pair.1 ∨ a = pair.2 := by
  simp [members]

/-- A step for both members of a pair. -/
def both (f : β → Except Fault γ) (pair : β × β) : Except Fault (γ × γ) := do
  let first ← f pair.1
  let second ← f pair.2
  return (first, second)

theorem both_eq_ok_iff {f : β → Except Fault γ} {pair : β × β} {found : γ × γ} :
    both f pair = .ok found ↔ f pair.1 = .ok found.1 ∧ f pair.2 = .ok found.2 := by
  obtain ⟨x, y⟩ := found
  unfold both
  cases f pair.1 with
  | error e => simp [bind, Except.bind]
  | ok b => cases f pair.2 <;> simp [bind, Except.bind, pure, Except.pure]

/-- A traversal of pairs fails as a traversal of their members does. -/
theorem mapM_both_eq_error_iff {f : β → Except Fault γ} {pairs : List (β × β)} {e : Fault} :
    pairs.mapM (both f) = .error e ↔ FailsFirst f (members pairs) e := by
  rw [← mapM_eq_error_iff_failsFirst, mapM_eq_error_iff, mapM_eq_error_iff, members,
    findSome?_flatMap]
  refine iff_of_eq (congrArg (· = some e) (findSome?_congr fun pair _ => ?_))
  unfold both
  cases hfirst : f pair.1 with
  | error e => simp [bind, Except.bind, hfirst]
  | ok x => cases hsecond : f pair.2 <;> simp [bind, Except.bind, pure, Except.pure, hfirst, hsecond]

/-- A traversal of pairs that succeeds finds what its step finds for the members. -/
theorem map_of_mapM_both {f : β → Except Fault γ} {pairs : List (β × β)} {found : List (γ × γ)}
    (h : pairs.mapM (both f) = .ok found) :
    pairs.map (Prod.map f f) = found.map (Prod.map .ok .ok) := by
  apply List.ext_getElem?
  intro k
  rw [List.getElem?_map, List.getElem?_map]
  cases hk : pairs[k]? with
  | none =>
    have hlength := length_of_mapM_eq_ok h
    have hle : found.length ≤ k := by
      rw [hlength]
      exact List.getElem?_eq_none_iff.mp hk
    rw [List.getElem?_eq_none hle]
    rfl
  | some pair =>
    obtain ⟨y, hy, hboth⟩ := getElem?_of_mapM_eq_ok h hk
    obtain ⟨hfirst, hsecond⟩ := both_eq_ok_iff.mp hboth
    rw [hy, Option.map_some, Option.map_some, Prod.map, hfirst, hsecond]
    rfl

/-- A traversal of pairs whose members all give something gives something. -/
theorem exists_mapM_both {f : β → Except Fault γ} {pairs : List (β × β)}
    (h : ∀ a ∈ members pairs, ∃ x, f a = .ok x) : ∃ found, pairs.mapM (both f) = .ok found := by
  refine exists_mapM_eq_ok fun pair hpair => ?_
  obtain ⟨x, hx⟩ := h pair.1 (mem_members.mpr ⟨pair, hpair, Or.inl rfl⟩)
  obtain ⟨y, hy⟩ := h pair.2 (mem_members.mpr ⟨pair, hpair, Or.inr rfl⟩)
  exact ⟨(x, y), both_eq_ok_iff.mpr ⟨hx, hy⟩⟩

/-- What a traversal of pairs finds is what its step finds for a member, and the other way round. -/
theorem mem_members_of_mapM_both {f : β → Except Fault γ} {pairs : List (β × β)}
    {found : List (γ × γ)} (h : pairs.mapM (both f) = .ok found) :
    (∀ a ∈ members pairs, ∃ x ∈ members found, f a = .ok x) ∧
      ∀ x ∈ members found, ∃ a ∈ members pairs, f a = .ok x := by
  have hmap : (members pairs).map f = (members found).map .ok := by
    have hmembers := congrArg members (map_of_mapM_both h)
    simpa [members, List.flatMap_map, List.map_flatMap] using hmembers
  constructor
  · intro a ha
    have hmem : f a ∈ (members found).map .ok := by
      rw [← hmap]
      exact List.mem_map.mpr ⟨a, ha, rfl⟩
    obtain ⟨x, hx, heq⟩ := List.mem_map.mp hmem
    exact ⟨x, hx, heq.symm⟩
  · intro x hx
    have hmem : .ok x ∈ (members pairs).map f := by
      rw [hmap]
      exact List.mem_map.mpr ⟨x, hx, rfl⟩
    exact List.mem_map.mp hmem

/-! ## The same pair twice -/

/-- Are two pairs the same, when `f` of their members is what counts? -/
def SamePair (f : β → γ) (x y : β × β) : Prop :=
  (f x.1 = f y.1 ∧ f x.2 = f y.2) ∨ (f x.1 = f y.2 ∧ f x.2 = f y.1)

/-- No pair stands at two positions, in either order of its members. -/
def Unrepeated (f : β → γ) (pairs : List (β × β)) : Prop :=
  pairs.Pairwise fun x y => ¬ SamePair f x y

theorem unrepeated_map (f : β → γ) (g : γ → δ) (pairs : List (β × β)) :
    Unrepeated g (pairs.map (Prod.map f f)) ↔ Unrepeated (g ∘ f) pairs := by
  simp [Unrepeated, List.pairwise_map, SamePair]

/-- Only which members are equal counts. -/
theorem unrepeated_congr {f : β → γ} {g : β → δ} {pairs : List (β × β)}
    (h : ∀ a ∈ members pairs, ∀ b ∈ members pairs, f a = f b ↔ g a = g b) :
    Unrepeated f pairs ↔ Unrepeated g pairs := by
  refine List.Pairwise.iff_of_mem fun {x y} hx hy => ?_
  have hmem : ∀ {z}, z ∈ pairs → z.1 ∈ members pairs ∧ z.2 ∈ members pairs := fun {z} hz =>
    ⟨mem_members.mpr ⟨z, hz, Or.inl rfl⟩, mem_members.mpr ⟨z, hz, Or.inr rfl⟩⟩
  obtain ⟨hx₁, hx₂⟩ := hmem hx
  obtain ⟨hy₁, hy₂⟩ := hmem hy
  rw [SamePair, SamePair, h _ hx₁ _ hy₁, h _ hx₂ _ hy₂, h _ hx₁ _ hy₂, h _ hx₂ _ hy₁]

/-- Pairs that were found repeat each other as before. -/
theorem unrepeated_map_ok (pairs : List (β × β)) :
    Unrepeated id (pairs.map (Prod.map (Except.ok (ε := Fault)) Except.ok)) ↔
      Unrepeated id pairs := by
  rw [unrepeated_map]
  exact unrepeated_congr fun a _ b _ => Except.ok.injEq a b ▸ Iff.rfl

theorem unordered_eq_iff {x y : Nat × Nat} : unordered x = unordered y ↔ SamePair id x y := by
  rw [unordered_eq_unordered_iff]
  simp [SamePair, Prod.ext_iff]

theorem nodup_unordered_iff {pairs : List (Nat × Nat)} :
    (pairs.map unordered).Nodup ↔ Unrepeated id pairs := by
  rw [List.Nodup, List.pairwise_map, Unrepeated]
  simp only [ne_eq, unordered_eq_iff]

end Pairs

/-- A request of pairs. -/
def ofPairs (pairs : List (Atom × Atom)) : List Item :=
  pairs.map fun pair => .list [pair.1, pair.2]

theorem mapM_map {β γ δ : Type} (g : β → γ) (f : γ → Except Fault δ) (xs : List β) :
    (xs.map g).mapM f = xs.mapM fun x => f (g x) := by
  induction xs with
  | nil => rfl
  | cons x xs ih => rw [List.map_cons, List.mapM_cons, List.mapM_cons, ih]

/-- The members of a request of pairs are made whole. -/
theorem pairs_ofPairs (pairs : List (Atom × Atom)) :
    Request.pairs (ofPairs pairs) = pairs.mapM (both Atom.whole) := by
  cases pairs with
  | nil => rfl
  | cons pair rest =>
    have hnone : (ofPairs (pair :: rest)).mapM Item.handle? = none := by
      simp [ofPairs, Item.handle?]
    unfold Request.pairs
    rw [hnone]
    exact mapM_map _ _ _

end Request

/-- A handle is made itself. -/
theorem Atom.whole_of_handle? {a : Atom} {n : Int} (h : a.handle? = some n) :
    a.whole = .ok n ∧ a.key = .whole n := by
  cases a with
  | truth b => exact ⟨congrArg Except.ok (Option.some.inj h), congrArg Key.whole (Option.some.inj h)⟩
  | integer i =>
    exact ⟨congrArg Except.ok (Option.some.inj h), congrArg Key.whole (Option.some.inj h)⟩
  | null => cases h
  | float x => cases h
  | text s => cases h

/-- A number has no whole part only where it is not finite. -/
theorem Atom.fault_of_whole {a : Atom} (hnumber : a.number?.isSome = true) {e : Fault}
    (h : a.whole = .error e) : e = .tooLarge ∨ e = .notANumeral := by
  cases a with
  | null => cases hnumber
  | text s => cases hnumber
  | truth b => cases h
  | integer i => cases h
  | float x =>
    unfold whole at h
    dsimp only at h
    split at h
    · cases h
      exact Or.inl rfl
    · split at h
      · cases h
      · cases h
        exact Or.inr rfl

namespace Problem

variable {α : Type} {p : Problem α}

/-- Does a member of a pair stand for the handle of a block, once it is made whole? -/
def Names (p : Problem α) (a : Atom) : Prop :=
  ∃ n, a.whole = .ok n ∧ p.has (.integer n) = true

theorem has_iff {a : Atom} : p.has a = true ↔ ∃ i, p.position a = .ok i := by
  simp only [has, Option.isSome_iff_exists, position_eq_ok_iff]

/-- A handle of a block stands for itself. -/
theorem exists_whole_of_has {a : Atom} (h : p.has a = true) :
    ∃ n, a.whole = .ok n ∧ a.key = .whole n ∧ p.has (.integer n) = true := by
  obtain ⟨i, hi⟩ := has_iff.mp h
  obtain ⟨hhandle, hlt⟩ := position?_eq_some_iff.mp (position_eq_ok_iff.mp hi)
  obtain ⟨hwhole, hkey⟩ := Atom.whole_of_handle? hhandle
  refine ⟨i, hwhole, hkey, has_iff.mpr ⟨i, ?_⟩⟩
  rw [position_eq_ok_iff, position?_integer]
  exact ⟨rfl, hlt⟩

/-- Handles depend on the number of blocks. -/
theorem position_of_size_eq {q : Problem α} (h : q.blocks.size = p.blocks.size) (a : Atom) :
    q.position a = p.position a := by
  simp only [position, position?, h]

theorem eq_unknownBlock_of_position {a : Atom} {e : Fault} (h : p.position a = .error e) :
    e = .unknownBlock a := by
  unfold position at h
  split at h
  · cases h
  · cases h
    rfl

end Problem

namespace Covariance

open Request

variable {α : Type}

/-! ## The stages of planning -/

theorem accept_itemsOf (p : Problem α) (pairs : List (Int × Int)) :
    Plan.accept p (itemsOf pairs) =
      pairs.mapM (both fun n => p.position (.integer n)) >>= fun positions =>
        (checkDistinct (positions.map unordered)).map fun _ => positions := by
  unfold Plan.accept itemsOf
  rw [mapM_map]
  refine congrArg _ (funext fun positions => ?_)
  cases checkDistinct (positions.map unordered) <;> rfl

/-- What is planned for pairs: all members are made whole, then all of them are looked up, then
repetitions are looked for, and then the columns are counted. -/
theorem planOf_ofPairs (p : Problem α) (pairs : List (Atom × Atom)) :
    planOf p (ofPairs pairs) =
      pairs.mapM (both Atom.whole) >>= fun wholes =>
        wholes.mapM (both fun n => p.position (.integer n)) >>= fun positions =>
          checkDistinct (positions.map unordered) >>= fun _ =>
            (ColumnBounds.make p true).check.map fun _ =>
              Plan.ofPairs (ColumnBounds.make p true) positions := by
  unfold planOf
  rw [pairs_ofPairs]
  cases pairs.mapM (both Atom.whole) with
  | error e => rfl
  | ok wholes =>
    simp only [Plan.make, accept_itemsOf, bind, Except.bind]
    cases wholes.mapM (both fun n => p.position (.integer n)) with
    | error e => rfl
    | ok positions =>
      simp only
      cases checkDistinct (positions.map unordered) with
      | error e => rfl
      | ok _ =>
        simp only [Except.map]
        cases (ColumnBounds.make p true).check <;> rfl

section Stages

variable {p : Problem α} {pairs : List (Atom × Atom)}

/-- Pairs of handles repeat each other where their positions do. -/
theorem unrepeated_iff_of_positions {wholes : List (Int × Int)} {positions : List (Nat × Nat)}
    (h : wholes.mapM (both fun n => p.position (.integer n)) = .ok positions) :
    Unrepeated id wholes ↔ Unrepeated id positions := by
  rw [← unrepeated_map_ok positions, ← map_of_mapM_both h, unrepeated_map]
  refine unrepeated_congr fun a ha b _ => ?_
  obtain ⟨i, -, ha'⟩ := (mem_members_of_mapM_both h).1 a ha
  constructor
  · exact fun hab => congrArg (fun n => p.position (.integer n)) hab
  · intro hab
    have hb : p.position (.integer b) = .ok i := hab.symm.trans ha'
    exact (position_integer.mp ha').1.trans (position_integer.mp hb).1.symm

/-- The members are made whole and looked up where all of them stand for handles. -/
theorem exists_positions (h : ∀ a ∈ members pairs, p.Names a) :
    ∃ wholes positions, pairs.mapM (both Atom.whole) = .ok wholes ∧
      wholes.mapM (both fun n => p.position (.integer n)) = .ok positions := by
  obtain ⟨wholes, hwholes⟩ := exists_mapM_both fun a ha => (h a ha).imp fun n hn => hn.1
  have hfound : ∀ n ∈ members wholes, ∃ i, p.position (.integer n) = .ok i := by
    intro n hn
    obtain ⟨a, ha, hwhole⟩ := (mem_members_of_mapM_both hwholes).2 n hn
    obtain ⟨m, hm, hhas⟩ := h a ha
    rw [hm] at hwhole
    cases hwhole
    exact Problem.has_iff.mp hhas
  obtain ⟨positions, hpositions⟩ := exists_mapM_both hfound
  exact ⟨wholes, positions, hwholes, hpositions⟩

section Found

variable {wholes : List (Int × Int)} {positions : List (Nat × Nat)}
  (hwholes : pairs.mapM (both Atom.whole) = .ok wholes)
  (hpositions : wholes.mapM (both fun n => p.position (.integer n)) = .ok positions)

include hwholes hpositions

theorem names_of_positions : ∀ a ∈ members pairs, p.Names a := by
  intro a ha
  obtain ⟨n, hn, hwhole⟩ := (mem_members_of_mapM_both hwholes).1 a ha
  obtain ⟨i, -, hi⟩ := (mem_members_of_mapM_both hpositions).1 n hn
  exact ⟨n, hwhole, Problem.has_iff.mpr ⟨i, hi⟩⟩

/-- Pairs repeat each other where their positions do. -/
theorem unrepeated_positions :
    Unrepeated Atom.whole pairs ↔ (positions.map unordered).Nodup := by
  have hfirst : Unrepeated Atom.whole pairs ↔ Unrepeated id wholes := by
    rw [← unrepeated_map_ok wholes, ← map_of_mapM_both hwholes, unrepeated_map]
    rfl
  rw [hfirst, unrepeated_iff_of_positions hpositions, nodup_unordered_iff]

end Found

/-! ## What is planned and what is refused -/

/-- A member that cannot be made whole is the first thing that is noticed. -/
theorem planOf_of_not_whole (q : Problem α) {e : Fault}
    (h : FailsFirst Atom.whole (members pairs) e) : planOf q (ofPairs pairs) = .error e := by
  rw [planOf_ofPairs, mapM_both_eq_error_iff.mpr h]
  rfl

/-- Then a member is noticed that is made the handle of no block. -/
theorem exists_unknown (hwhole : ∀ a ∈ members pairs, ∃ n, a.whole = .ok n)
    (hnot : ∃ a ∈ members pairs, ¬ p.Names a) :
    ∃ a ∈ members pairs, ∃ n, a.whole = .ok n ∧ p.has (.integer n) = false ∧
      ∀ q : Problem α, q.blocks.size = p.blocks.size →
        planOf q (ofPairs pairs) = .error (.unknownBlock (.integer n)) := by
  obtain ⟨wholes, hwholes⟩ := exists_mapM_both hwhole
  cases hfound : wholes.mapM (both fun n => p.position (.integer n)) with
  | ok positions =>
    obtain ⟨a, ha, hnames⟩ := hnot
    exact absurd (names_of_positions hwholes hfound a ha) hnames
  | error e =>
    obtain ⟨before, n, rest, hsplit, hn, -⟩ := mapM_both_eq_error_iff.mp hfound
    have hn : p.position (.integer n) = .error e := hn
    obtain ⟨a, ha, hwhole⟩ := (mem_members_of_mapM_both hwholes).2 n (by rw [hsplit]; simp)
    obtain rfl := Problem.eq_unknownBlock_of_position hn
    refine ⟨a, ha, n, hwhole, ?_, fun q hq => ?_⟩
    · rw [← Bool.not_eq_true, Problem.has_iff]
      rintro ⟨i, hi⟩
      rw [hn] at hi
      cases hi
    · have hsame : (fun n => q.position (.integer n)) = fun n => p.position (.integer n) :=
        funext fun n => Problem.position_of_size_eq hq _
      simp only [planOf_ofPairs, hwholes, hsame, bind, Except.bind, hfound]

/-- Then it is noticed that a pair is repeated. -/
theorem exists_groups (hnames : ∀ a ∈ members pairs, p.Names a)
    (hrepeated : ¬ Unrepeated Atom.whole pairs) :
    ∃ groups, groups ≠ [] ∧ ∀ q : Problem α, q.blocks.size = p.blocks.size →
      planOf q (ofPairs pairs) = .error (.duplicates groups) := by
  obtain ⟨wholes, positions, hwholes, hpositions⟩ := exists_positions hnames
  rw [unrepeated_positions hwholes hpositions] at hrepeated
  refine ⟨repeated (positions.map unordered), repeated_eq_nil_iff.not.mpr hrepeated, ?_⟩
  intro q hq
  have hsame : (fun n => q.position (.integer n)) = fun n => p.position (.integer n) :=
    funext fun n => Problem.position_of_size_eq hq _
  simp only [planOf_ofPairs, hwholes, hsame, bind, Except.bind, hpositions,
    (checkDistinct_eq (positions.map unordered)).2 hrepeated]

/-- Pairs are planned whose members are made handles of blocks, and which do not repeat each other
then. -/
theorem planned_iff : (∃ plan, planOf p (ofPairs pairs) = .ok plan) ↔
    (∀ a ∈ members pairs, p.Names a) ∧ Unrepeated Atom.whole pairs ∧
      (ColumnBounds.make p true).check = .ok () := by
  rw [planOf_ofPairs]
  constructor
  · rintro ⟨plan, hplan⟩
    obtain ⟨wholes, hwholes, hplan⟩ := bind_eq_ok_iff.mp hplan
    obtain ⟨positions, hpositions, hplan⟩ := bind_eq_ok_iff.mp hplan
    obtain ⟨_, hdistinct, hplan⟩ := bind_eq_ok_iff.mp hplan
    obtain ⟨_, hcheck, -⟩ := map_eq_ok_iff.mp hplan
    refine ⟨names_of_positions hwholes hpositions, ?_, hcheck⟩
    rw [unrepeated_positions hwholes hpositions]
    by_contra hnodup
    rw [(checkDistinct_eq _).2 hnodup] at hdistinct
    cases hdistinct
  · rintro ⟨hnames, hunrepeated, hcheck⟩
    obtain ⟨wholes, positions, hwholes, hpositions⟩ := exists_positions hnames
    rw [unrepeated_positions hwholes hpositions] at hunrepeated
    have hdistinct := (checkDistinct_eq (positions.map unordered)).1 hunrepeated
    simp [hwholes, hpositions, hdistinct, hcheck, bind, Except.bind, Except.map]

end Stages

theorem log_make_of_error {p : Problem α} {items : List Item} {e : Fault}
    (h : (Plan.make p items).answer = .error e) : (Plan.make p items).log = [] := by
  unfold Plan.make at h ⊢
  cases haccept : Plan.accept p items with
  | error e' => rfl
  | ok pairs =>
    simp only [haccept] at h ⊢
    cases hcheck : (ColumnBounds.make p true).check with
    | error e' => rfl
    | ok _ =>
      rw [hcheck] at h
      cases h

section Refusing

variable [Zero α] [One α] [Add α] [Sub α] [Neg α] [Mul α] [Div α] [NatCast α]
  [BEq α] [LT α] [DecidableLT α] [LE α] [DecidableLE α] [Elementary α]

/-- A request is refused for its handles alone: whatever the blocks are and whatever uses them,
nothing is evaluated, nothing is logged, and nothing is stored. -/
def Refused (p : Problem α) (request : List Item) (e : Fault) : Prop :=
  ∀ q : Problem α, q.blocks.size = p.blocks.size → ∀ (engine : Engine α) (c : Covariance α),
    compute engine c q request = { answer := .error e, state := c.forget }

/-- A request that is not planned is not computed either. -/
theorem compute_of_planOf_eq_error {p : Problem α} {request : List Item} {e : Fault}
    (h : planOf p request = .error e) (engine : Engine α) (c : Covariance α) :
    compute engine c p request = { answer := .error e, state := c.forget } := by
  unfold planOf at h
  unfold compute
  cases hpairs : Request.pairs request with
  | error e' =>
    rw [hpairs] at h
    cases h
    rfl
  | ok pairs =>
    simp only [hpairs, itemsOf] at h
    simp only [h, log_make_of_error h]

theorem refused_of_planOf {p : Problem α} {request : List Item} {e : Fault}
    (h : ∀ q : Problem α, q.blocks.size = p.blocks.size → planOf q request = .error e) :
    Refused p request e :=
  fun q hq engine c => compute_of_planOf_eq_error (h q hq) engine c

variable {p : Problem α} {pairs : List (Atom × Atom)}

/-- Where a handle of a block is refused only if it is made the handle of no block either, a request
is planned for its handles: all of them are there, and no pair stands at two positions. -/
theorem admission_of_plain
    (hplain : ∀ a ∈ members pairs,
      p.has a = true ∨ ∃ n, a.whole = .ok n ∧ p.has (.integer n) = false) :
    ((∃ plan, planOf p (ofPairs pairs) = .ok plan) ↔
      (∀ a ∈ members pairs, p.has a = true) ∧ Unrepeated Atom.key pairs ∧
        (ColumnBounds.make p true).check = .ok ()) ∧
    ((∃ a ∈ members pairs, p.has a = false) →
      ∃ n, Refused p (ofPairs pairs) (.unknownBlock (.integer n))) ∧
    ((∀ a ∈ members pairs, p.has a = true) → ¬ Unrepeated Atom.key pairs →
      ∃ groups, groups ≠ [] ∧ Refused p (ofPairs pairs) (.duplicates groups)) := by
  have hnames : ∀ a ∈ members pairs, p.Names a ↔ p.has a = true := by
    intro a ha
    constructor
    · rintro ⟨n, hn, hhas⟩
      rcases hplain a ha with hthere | ⟨m, hm, hnot⟩
      · exact hthere
      · rw [hn] at hm
        cases hm
        rw [hhas] at hnot
        cases hnot
    · intro h
      obtain ⟨n, hn, -, hhas⟩ := Problem.exists_whole_of_has h
      exact ⟨n, hn, hhas⟩
  have hwhole : ∀ a ∈ members pairs, ∃ n, a.whole = .ok n := by
    intro a ha
    rcases hplain a ha with h | ⟨n, hn, -⟩
    · obtain ⟨n, hn, -⟩ := Problem.exists_whole_of_has h
      exact ⟨n, hn⟩
    · exact ⟨n, hn⟩
  have hunrepeated : (∀ a ∈ members pairs, p.has a = true) →
      (Unrepeated Atom.whole pairs ↔ Unrepeated Atom.key pairs) := by
    intro hall
    refine unrepeated_congr fun a ha b hb => ?_
    obtain ⟨n, hn, hkey, -⟩ := Problem.exists_whole_of_has (hall a ha)
    obtain ⟨m, hm, hkey', -⟩ := Problem.exists_whole_of_has (hall b hb)
    rw [hn, hm, hkey, hkey', Except.ok.injEq, Atom.Key.whole.injEq]
  refine ⟨?_, ?_, fun hall hrepeated => ?_⟩
  · rw [planned_iff, forall₂_congr hnames]
    exact and_congr_right fun hall => and_congr_left fun _ => hunrepeated hall
  · rintro ⟨a, ha, hnot⟩
    have hunnamed : ¬ p.Names a := by
      rw [hnames a ha, hnot]
      exact Bool.false_ne_true
    obtain ⟨-, -, n, -, -, hplan⟩ := exists_unknown hwhole ⟨a, ha, hunnamed⟩
    exact ⟨n, refused_of_planOf hplan⟩
  · obtain ⟨groups, hne, hplan⟩ := exists_groups (fun a ha => (hnames a ha).mpr (hall a ha))
      ((hunrepeated hall).not.mpr hrepeated)
    exact ⟨groups, hne, refused_of_planOf hplan⟩

/-- **What a request of pairs of numbers comes to.** It is planned exactly if every member stands
for the handle of a block once it has lost its fraction, no pair stands at two positions then, and
the columns can be counted. Otherwise the first thing that is noticed decides: a number that is not
finite, then the handle of no block, then a repeated pair; and each time nothing is evaluated, logged
or stored. If every member is a handle, or loses its fraction to the handle of no block, the members
themselves decide: all of them have to be handles, and no pair may stand at two positions. -/
theorem admission (p : Problem α) {pairs : List (Atom × Atom)}
    (hnumbers : ∀ a ∈ members pairs, a.number?.isSome = true) :
    let request := ofPairs pairs
    ((∃ plan, planOf p request = .ok plan) ↔
      (∀ a ∈ members pairs, p.Names a) ∧ Unrepeated Atom.whole pairs ∧
        (ColumnBounds.make p true).check = .ok ()) ∧
    ((∃ a ∈ members pairs, ∀ n, a.whole ≠ .ok n) →
      ∃ e, FailsFirst Atom.whole (members pairs) e ∧ (e = .tooLarge ∨ e = .notANumeral) ∧
        Refused p request e) ∧
    ((∀ a ∈ members pairs, ∃ n, a.whole = .ok n) → (∃ a ∈ members pairs, ¬ p.Names a) →
      ∃ a ∈ members pairs, ∃ n, a.whole = .ok n ∧ p.has (.integer n) = false ∧
        Refused p request (.unknownBlock (.integer n))) ∧
    ((∀ a ∈ members pairs, p.Names a) → ¬ Unrepeated Atom.whole pairs →
      ∃ groups, groups ≠ [] ∧ Refused p request (.duplicates groups)) ∧
    ((∀ a ∈ members pairs, p.has a = true ∨ ∃ n, a.whole = .ok n ∧ p.has (.integer n) = false) →
      ((∃ plan, planOf p request = .ok plan) ↔
        (∀ a ∈ members pairs, p.has a = true) ∧ Unrepeated Atom.key pairs ∧
          (ColumnBounds.make p true).check = .ok ()) ∧
      ((∃ a ∈ members pairs, p.has a = false) →
        ∃ n, Refused p request (.unknownBlock (.integer n))) ∧
      ((∀ a ∈ members pairs, p.has a = true) → ¬ Unrepeated Atom.key pairs →
        ∃ groups, groups ≠ [] ∧ Refused p request (.duplicates groups))) := by
  intro request
  refine ⟨planned_iff, fun hnot => ?_, fun hwhole hnot => ?_, fun hnames hrepeated => ?_,
    admission_of_plain⟩
  · obtain ⟨e, hfails⟩ := exists_failsFirst hnot
    refine ⟨e, hfails, ?_, refused_of_planOf fun q _ => planOf_of_not_whole q hfails⟩
    obtain ⟨before, a, rest, hsplit, ha, -⟩ := hfails
    exact Atom.fault_of_whole (hnumbers a (by rw [hsplit]; simp)) ha
  · obtain ⟨a, ha, n, hn, hhas, hplan⟩ := exists_unknown hwhole hnot
    exact ⟨a, ha, n, hn, hhas, refused_of_planOf hplan⟩
  · obtain ⟨groups, hne, hplan⟩ := exists_groups hnames hrepeated
    exact ⟨groups, hne, refused_of_planOf hplan⟩

end Refusing

/-- The pairs of 0.7 and 0, and of the truth value and -0.5, are refused as one pair that stands at
two positions. -/
theorem admission_of_fractions :
    ∃ groups, groups ≠ [] ∧ Refused (oneBlock 2 #[2, 0, 0, 1])
      (ofPairs [(.float 0.7, .integer 0), (.truth false, .float (-0.5))]) (.duplicates groups) := by
  have hmembers : ∀ a ∈ members [(Atom.float 0.7, Atom.integer 0), (.truth false, .float (-0.5))],
      a.number?.isSome = true ∧ (oneBlock 2 #[2, 0, 0, 1]).Names a := by
    simp only [members, List.flatMap_cons, List.flatMap_nil, List.append_nil, List.cons_append,
      List.nil_append, List.forall_mem_cons]
    refine ⟨⟨rfl, 0, rfl, rfl⟩, ⟨rfl, 0, rfl, rfl⟩, ⟨rfl, 0, rfl, rfl⟩, ⟨rfl, 0, rfl, rfl⟩, ?_⟩
    exact fun a ha => absurd ha List.not_mem_nil
  obtain ⟨-, -, -, hrepeated, -⟩ := admission (oneBlock 2 #[2, 0, 0, 1])
    fun a ha => (hmembers a ha).1
  refine hrepeated (fun a ha => (hmembers a ha).2) fun h => ?_
  exact (List.pairwise_cons.mp h).1 _ List.mem_cons_self (Or.inl ⟨rfl, rfl⟩)

/-- There is no block 0.7, and its covariance with itself is computed. -/
theorem fraction_admitted :
    (oneBlock 2 #[2, 0, 0, 1]).has (.float 0.7) = false ∧
      (compute Engine.exact (plain .sparseQr) (oneBlock 2 #[2, 0, 0, 1])
        [.list [.float 0.7, .float 0.7]]).answer = .ok true := by
  have hplan : planOf (oneBlock 2 #[2, 0, 0, 1]) [.list [.float 0.7, .float 0.7]] =
      planOf (oneBlock 2 #[2, 0, 0, 1]) itself := by
    have hwritten : Request.pairs [.list [.float 0.7, .float 0.7]] = .ok [(0, 0)] := rfl
    have hhandle : Request.pairs itself = .ok [(0, 0)] := by cbv
    rw [planOf, planOf, hwritten, hhandle]
  refine ⟨rfl, ?_⟩
  have hplanned := planOf_oneBlock 2 #[2, 0, 0, 1]
  rw [(compute_eq (hplan.trans hplanned) _ _).1, ← (compute_eq hplanned _ _).1]
  exact answer_square .sparseQr

end Covariance

end LeastSquares
