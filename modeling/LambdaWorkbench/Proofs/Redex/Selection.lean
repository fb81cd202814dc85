import Mathlib.Data.List.MinMax
import LambdaWorkbench.Proofs.Address.Order
import LambdaWorkbench.Redex.Policy

/-! # What a policy picks

Of any addresses, in whatever order and however often they are given, a policy picks one. It leaves
out those that another one is around, or inside, and of the others, no two of which are on one path,
it picks the one that all the rest stand to the right, or to the left, of.
-/

namespace LambdaWorkbench

/-- Whether the depth of a policy puts the first address before the second. -/
def Depth.Prefers : Depth → Address → Address → Prop
  | .outermost, a, b => a.Above b
  | .innermost, a, b => b.Above a

/-- Whether the side of a policy puts the first address before the second. -/
def Side.Prefers : Side → Address → Address → Prop
  | .leftmost, a, b => a.LeftOf b
  | .rightmost, a, b => b.LeftOf a

section Prefers

variable {depth : Depth} {side : Side} {a b c : Address}

theorem Depth.Prefers.trans (h : depth.Prefers a b) (h' : depth.Prefers b c) :
    depth.Prefers a c := by
  cases depth with
  | outermost => exact Address.Above.trans h h'
  | innermost => exact Address.Above.trans h' h

theorem Depth.not_prefers_self (depth : Depth) (a : Address) : ¬ depth.Prefers a a := by
  cases depth <;> exact Address.not_above_self a

theorem Side.Prefers.asymm (h : side.Prefers a b) : ¬ side.Prefers b a := by
  cases side <;> exact Address.LeftOf.asymm h

/-- An address on one side of another is neither around it nor inside it. -/
theorem Side.Prefers.not_depth (h : side.Prefers a b) (depth : Depth) : ¬ depth.Prefers b a := by
  cases side <;> cases depth
  · exact Address.LeftOf.not_below h
  · exact Address.LeftOf.not_above h
  · exact Address.LeftOf.not_above h
  · exact Address.LeftOf.not_below h

theorem eq_or_prefers (depth : Depth) (side : Side) (a b : Address) :
    a = b ∨ depth.Prefers a b ∨ depth.Prefers b a ∨ side.Prefers a b ∨ side.Prefers b a := by
  have cases := Address.eq_or_above_or_leftOf a b
  cases depth <;> cases side <;> simp only [Depth.Prefers, Side.Prefers] <;> grind

end Prefers

namespace Policy

/-! ## The best of a list -/

section Best

variable {r : Address → Address → Prop} [DecidableRel r]

/-- The address that is kept after the first and the rest have been compared in turn. -/
theorem foldl_argAux_some (first : Address) (rest : List Address) :
    rest.foldl (List.argAux r) (some first) =
      some (rest.foldl (fun best next => if r next best then next else best) first) := by
  induction rest generalizing first with
  | nil => rfl
  | cons next rest ih =>
    rw [List.foldl_cons, List.foldl_cons, ← ih]
    refine congrArg (List.foldl _ · rest) ?_
    simp only [List.argAux]
    split <;> rfl

theorem foldl_mem (first : Address) (rest : List Address) :
    rest.foldl (fun best next => if r next best then next else best) first ∈ first :: rest := by
  induction rest generalizing first with
  | nil => exact List.mem_singleton.mpr rfl
  | cons next rest ih =>
    rw [List.foldl_cons]
    split
    · exact List.mem_cons_of_mem _ (ih next)
    · rcases List.mem_cons.mp (ih first) with same | inRest
      · rw [same]
        exact List.mem_cons_self
      · exact List.mem_cons_of_mem _ (List.mem_cons_of_mem _ inRest)

theorem foldl_best (irrefl : Std.Irrefl r) (trans : IsTrans Address r) (first : Address)
    (rest : List Address) : ∀ other ∈ first :: rest,
      ¬ r other (rest.foldl (fun best next => if r next best then next else best) first) :=
  fun _ mem => List.not_of_mem_foldl_argAux r irrefl trans (o := none) mem
    (foldl_argAux_some first rest)

end Best

/-! ## Selection -/

/-- What a policy has to pick: a candidate that no other one is around, or inside, and that is to
the left, or to the right, of all others of which the same holds. -/
structure Picks (policy : Policy) (candidates : List Address) (address : Address) : Prop where
  mem : address ∈ candidates
  depth : ∀ other ∈ candidates, ¬ policy.depth.Prefers other address
  side : ∀ other ∈ candidates, (∀ third ∈ candidates, ¬ policy.depth.Prefers third other) →
    other = address ∨ policy.side.Prefers address other

variable {policy : Policy} {candidates : List Address} {address other : Address}

theorem considers_iff : policy.considers candidates address = true ↔
    ∀ other ∈ candidates, ¬ policy.depth.Prefers other address := by
  unfold considers
  cases policy.depth with
  | outermost =>
    simp only [Bool.not_eq_true', List.any_eq_false, Address.isAbove_iff]
    exact Iff.rfl
  | innermost =>
    simp only [Bool.not_eq_true', List.any_eq_false, Address.isAbove_iff]
    exact Iff.rfl

theorem mem_considered : address ∈ candidates.filter (policy.considers candidates) ↔
    address ∈ candidates ∧ ∀ other ∈ candidates, ¬ policy.depth.Prefers other address := by
  rw [List.mem_filter, considers_iff]

/-- Some candidate is always considered. -/
theorem considered_ne_nil (policy : Policy) (nonempty : candidates ≠ []) :
    candidates.filter (policy.considers candidates) ≠ [] := by
  classical
  obtain ⟨first, rest, rfl⟩ := List.exists_cons_of_ne_nil nonempty
  have mem := foldl_mem (r := policy.depth.Prefers) first rest
  refine List.ne_nil_of_mem (mem_considered.mpr ⟨mem, ?_⟩)
  exact foldl_best ⟨policy.depth.not_prefers_self⟩ ⟨fun _ _ _ => Depth.Prefers.trans⟩ first rest

/-- Of the considered addresses the last one on a side is what the policy has to pick: no two of
them are on one path, so each of the others is on the other side of it. -/
theorem picks_of_best (mem : address ∈ candidates.filter (policy.considers candidates))
    (best : ∀ other ∈ candidates.filter (policy.considers candidates),
      ¬ policy.side.Prefers other address) : policy.Picks candidates address := by
  obtain ⟨inCandidates, depth⟩ := mem_considered.mp mem
  refine ⟨inCandidates, depth, ?_⟩
  intro other inCandidates' depth'
  rcases eq_or_prefers policy.depth policy.side other address with
    same | outside | inside | beyond | before
  · exact .inl same
  · exact absurd outside (depth other inCandidates')
  · exact absurd inside (depth' address inCandidates)
  · exact absurd beyond (best other (mem_considered.mpr ⟨inCandidates', depth'⟩))
  · exact .inr before

/-- Of any candidates one is picked. -/
theorem exists_select (policy : Policy) (nonempty : candidates ≠ []) :
    ∃ address, policy.select candidates = some address ∧ policy.Picks candidates address := by
  obtain ⟨first, rest, considered⟩ :=
    List.exists_cons_of_ne_nil (considered_ne_nil policy nonempty)
  have picks {address : Address} (mem : address ∈ first :: rest)
      (best : ∀ other ∈ first :: rest, ¬ policy.side.Prefers other address) :
      policy.Picks candidates address := by
    rw [← considered] at mem best
    exact picks_of_best mem best
  simp only [select, considered]
  cases side : policy.side with
  | leftmost =>
    refine ⟨_, rfl, picks (foldl_mem first rest) ?_⟩
    intro other mem left
    rw [side] at left
    exact foldl_best inferInstance inferInstance first rest other mem left.lt
  | rightmost =>
    refine ⟨_, rfl, picks (foldl_mem (r := fun a b => b < a) first rest) ?_⟩
    intro other mem right
    rw [side] at right
    exact foldl_best (r := fun a b => b < a) inferInstance inferInstance first rest other mem
      right.lt

theorem Picks.unique (h : policy.Picks candidates address) (h' : policy.Picks candidates other) :
    address = other := by
  rcases h'.side address h.mem h.depth with same | before
  · exact same
  rcases h.side other h'.mem h'.depth with same | after
  · exact same.symm
  · exact absurd after before.asymm

theorem select_eq_some_iff :
    policy.select candidates = some address ↔ policy.Picks candidates address := by
  constructor
  · intro h
    have nonempty : candidates ≠ [] := by
      rintro rfl
      rw [select] at h
      cases side : policy.side <;> rw [side] at h <;> cases h
    obtain ⟨picked, eq, picks⟩ := exists_select policy nonempty
    cases h.symm.trans eq
    exact picks
  · intro h
    obtain ⟨picked, eq, picks⟩ := exists_select policy (List.ne_nil_of_mem h.mem)
    rw [eq, picks.unique h]

theorem select_eq_none_iff : policy.select candidates = none ↔ candidates = [] := by
  constructor
  · intro h
    by_contra nonempty
    obtain ⟨picked, eq, -⟩ := exists_select policy nonempty
    cases h.symm.trans eq
  · rintro rfl
    refine Option.eq_none_iff_forall_ne_some.mpr ?_
    intro address eq
    exact List.not_mem_nil (select_eq_some_iff.mp eq).mem

/-- A policy picks one of the candidates. -/
theorem mem_of_select (h : policy.select candidates = some address) : address ∈ candidates :=
  (select_eq_some_iff.mp h).mem

/-- Of addresses in their order, normal order picks the first. -/
theorem select_normalOrder (sorted : candidates.Pairwise (· < ·)) :
    normalOrder.select candidates = candidates.head? := by
  cases candidates with
  | nil => rfl
  | cons first rest =>
    obtain ⟨before, -⟩ := List.pairwise_cons.mp sorted
    refine select_eq_some_iff.mpr ⟨List.mem_cons_self, ?_, ?_⟩
    · intro other mem above
      rcases List.mem_cons.mp mem with rfl | inRest
      · exact Address.not_above_self _ above
      · exact List.lt_asymm (before other inRest) above.lt
    · intro other mem depth
      rcases List.mem_cons.mp mem with same | inRest
      · exact .inl same
      · rcases Address.lt_iff.mp (before other inRest) with above | left
        · exact absurd above (depth first List.mem_cons_self)
        · exact .inr left

end Policy

end LambdaWorkbench
