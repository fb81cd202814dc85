import LambdaWorkbench.Proofs.Redex.Agreement
import LambdaWorkbench.Proofs.Redex.Selection

/-! # Searching a term for a redex

A policy picks from the list of redexes what a direct search of the term meets first. The search
visits a node before or after its parts, as the depth of the policy says, and the function side of
an application before or after the argument, as its side says.
-/

namespace LambdaWorkbench

/-- A node, at the root, and the addresses in its parts, in the order in which a search takes
them. -/
def Depth.arrange (depth : Depth) (parts : List Address) : List Address :=
  match depth with
  | .outermost => [] :: parts
  | .innermost => parts ++ [[]]

/-- The addresses in the two parts of an application in the order in which a search takes them. -/
def Side.arrange (side : Side) (inFunc inArg : List Address) : List Address :=
  match side with
  | .leftmost => inFunc ++ inArg
  | .rightmost => inArg ++ inFunc

/-- The addresses of all subterms in the order in which the search of a policy visits them. -/
def Term.visits (policy : Policy) : Term → List Address
  | var _ _ => policy.depth.arrange []
  | lam _ body => policy.depth.arrange ((body.visits policy).map (.body :: ·))
  | app func arg =>
    policy.depth.arrange (policy.side.arrange ((func.visits policy).map (.func :: ·))
      ((arg.visits policy).map (.arg :: ·)))

/-- Whether an address leads to a redex. -/
def Environment.isRedexAt (env : Environment) (t : Term) (address : Address) : Bool :=
  match env.classify t address with
  | .ok (.ok _) => true
  | _ => false

/-! ## The order of visits -/

/-- Whether the search of a policy visits the first address before the second. -/
def Policy.Before (policy : Policy) (a b : Address) : Prop :=
  policy.depth.Prefers a b ∨ policy.side.Prefers a b

section Arrange

variable {policy : Policy} {parts inFunc inArg : List Address} {address : Address}

theorem Policy.before_cons_self {a b : Address} (step : Step) :
    policy.Before (step :: a) (step :: b) ↔ policy.Before a b := by
  simp only [Before]
  cases policy.depth <;> cases policy.side <;>
    simp [Depth.Prefers, Side.Prefers, Address.above_cons, Address.leftOf_cons_self]

theorem Policy.pairwise_map_cons {addresses : List Address} (step : Step)
    (sorted : addresses.Pairwise policy.Before) :
    (addresses.map (step :: ·)).Pairwise policy.Before :=
  List.pairwise_map.mpr (sorted.imp (before_cons_self step).mpr)

theorem Depth.mem_arrange {depth : Depth} :
    address ∈ depth.arrange parts ↔ address = [] ∨ address ∈ parts := by
  cases depth <;> simp [arrange, or_comm]

theorem Side.mem_arrange {side : Side} :
    address ∈ side.arrange inFunc inArg ↔ address ∈ inFunc ∨ address ∈ inArg := by
  cases side <;> simp [arrange, or_comm]

theorem Depth.pairwise_arrange (sorted : parts.Pairwise policy.Before) (below : [] ∉ parts) :
    (policy.depth.arrange parts).Pairwise policy.Before := by
  have above : ∀ part ∈ parts, Address.Above [] part := by
    intro part mem
    refine ⟨List.nil_prefix, ?_⟩
    rintro rfl
    exact below mem
  cases depth : policy.depth with
  | outermost =>
    refine List.pairwise_cons.mpr ⟨?_, sorted⟩
    intro part mem
    refine .inl ?_
    rw [depth]
    exact above part mem
  | innermost =>
    refine List.pairwise_append.mpr ⟨sorted, List.pairwise_singleton _ _, ?_⟩
    intro part mem root isRoot
    refine .inl ?_
    rw [depth, List.mem_singleton.mp isRoot]
    exact above part mem

theorem Side.pairwise_arrange (inOrder : inFunc.Pairwise policy.Before)
    (inOrder' : inArg.Pairwise policy.Before)
    (left : ∀ a ∈ inFunc, ∀ b ∈ inArg, a.LeftOf b) :
    (policy.side.arrange inFunc inArg).Pairwise policy.Before := by
  cases side : policy.side with
  | leftmost =>
    refine List.pairwise_append.mpr ⟨inOrder, inOrder', ?_⟩
    intro a ha b hb
    refine .inr ?_
    rw [side]
    exact left a ha b hb
  | rightmost =>
    refine List.pairwise_append.mpr ⟨inOrder', inOrder, ?_⟩
    intro b hb a ha
    refine .inr ?_
    rw [side]
    exact left a ha b hb

end Arrange

namespace Term

variable {policy : Policy} {t : Term} {address : Address}

theorem visits_pairwise (policy : Policy) (t : Term) :
    (t.visits policy).Pairwise policy.Before := by
  induction t with
  | var name index => exact Depth.pairwise_arrange .nil List.not_mem_nil
  | lam param body ih => exact Depth.pairwise_arrange (Policy.pairwise_map_cons .body ih) (by simp)
  | app func arg ihf iha =>
    refine Depth.pairwise_arrange ?_ (by simp [Side.mem_arrange])
    refine Side.pairwise_arrange (Policy.pairwise_map_cons .func ihf)
      (Policy.pairwise_map_cons .arg iha) ?_
    intro a ha b hb
    obtain ⟨rest, -, rfl⟩ := List.mem_map.mp ha
    obtain ⟨rest', -, rfl⟩ := List.mem_map.mp hb
    exact Address.leftOf_of_lt (by decide) rest rest'

/-- Exactly the addresses of the subterms are visited. -/
theorem mem_visits : address ∈ t.visits policy ↔ ∃ binders sub, Path t address binders sub := by
  constructor
  · intro mem
    induction t generalizing address with
    | var name index =>
      rcases Depth.mem_arrange.mp mem with rfl | inParts
      · exact ⟨[], _, .root _⟩
      · cases inParts
    | lam param body ih =>
      rcases Depth.mem_arrange.mp mem with rfl | inParts
      · exact ⟨[], _, .root _⟩
      · obtain ⟨rest, inBody, rfl⟩ := List.mem_map.mp inParts
        obtain ⟨binders, sub, path⟩ := ih inBody
        exact ⟨_, sub, .body path⟩
    | app func arg ihf iha =>
      rcases Depth.mem_arrange.mp mem with rfl | inParts
      · exact ⟨[], _, .root _⟩
      rcases Side.mem_arrange.mp inParts with inFunc | inArg
      · obtain ⟨rest, inside, rfl⟩ := List.mem_map.mp inFunc
        obtain ⟨binders, sub, path⟩ := ihf inside
        exact ⟨binders, sub, .func path⟩
      · obtain ⟨rest, inside, rfl⟩ := List.mem_map.mp inArg
        obtain ⟨binders, sub, path⟩ := iha inside
        exact ⟨binders, sub, .arg path⟩
  · rintro ⟨binders, sub, path⟩
    induction path with
    | root t => cases t <;> exact Depth.mem_arrange.mpr (.inl rfl)
    | func _ ih =>
      refine Depth.mem_arrange.mpr (.inr (Side.mem_arrange.mpr (.inl ?_)))
      exact List.mem_map.mpr ⟨_, ih, rfl⟩
    | body _ ih => exact Depth.mem_arrange.mpr (.inr (List.mem_map.mpr ⟨_, ih, rfl⟩))
    | arg _ ih =>
      refine Depth.mem_arrange.mpr (.inr (Side.mem_arrange.mpr (.inr ?_)))
      exact List.mem_map.mpr ⟨_, ih, rfl⟩

end Term

/-! ## The first redex -/

section

variable {policy : Policy} {env : Environment} {t : Term} {address : Address}

theorem Environment.isRedexAt_iff : env.isRedexAt t address = true ↔ address ∈ env.redexes t := by
  rw [mem_redexes_iff_classify, isRedexAt]
  rcases env.classify t address with fault | reason | redex
  · simp
  · simp
  · simp

theorem Environment.mem_visits_of_mem_redexes (mem : address ∈ env.redexes t) :
    address ∈ t.visits policy := by
  obtain ⟨u, reduced⟩ := mem_redexes_iff.mp mem
  exact Term.mem_visits.mpr (exists_path_of_reduceAt reduced)

end

namespace Policy

open Environment

variable {policy : Policy} {env : Environment} {t : Term} {address : Address}

/-- What is met first is before all others that would do. -/
theorem eq_or_before_of_find? {addresses : List Address} {p : Address → Bool} {other : Address}
    (sorted : addresses.Pairwise policy.Before) (first : addresses.find? p = some address)
    (mem : other ∈ addresses) (fits : p other = true) :
    other = address ∨ policy.Before address other := by
  obtain ⟨-, front, back, rfl, skipped⟩ := List.find?_eq_some_iff_append.mp first
  rcases List.mem_append.mp mem with inFront | later
  · have misfit := skipped other inFront
    rw [fits] at misfit
    cases misfit
  rcases List.mem_cons.mp later with same | inBack
  · exact .inl same
  · exact .inr (List.rel_of_pairwise_cons (List.pairwise_append.mp sorted).2.1 inBack)

/-- The first redex of a search is what the policy has to pick. -/
theorem picks_of_find? (first : (t.visits policy).find? (env.isRedexAt t) = some address) :
    policy.Picks (env.redexes t) address := by
  have mem := isRedexAt_iff.mp (List.find?_some first)
  have before : ∀ other ∈ env.redexes t, other = address ∨ policy.Before address other :=
    fun other listed => eq_or_before_of_find? (Term.visits_pairwise policy t) first
      (mem_visits_of_mem_redexes listed) (isRedexAt_iff.mpr listed)
  refine ⟨mem, ?_, ?_⟩
  · intro other listed prefers
    rcases before other listed with rfl | depth | side
    · exact policy.depth.not_prefers_self _ prefers
    · exact policy.depth.not_prefers_self _ (depth.trans prefers)
    · exact side.not_depth _ prefers
  · intro other listed considered
    rcases before other listed with same | depth | side
    · exact .inl same
    · exact absurd depth (considered address mem)
    · exact .inr side

theorem select_redexes (policy : Policy) (env : Environment) (t : Term) :
    policy.select (env.redexes t) = (t.visits policy).find? (env.isRedexAt t) := by
  cases first : (t.visits policy).find? (env.isRedexAt t) with
  | some address => exact select_eq_some_iff.mpr (picks_of_find? first)
  | none =>
    refine select_eq_none_iff.mpr (List.eq_nil_iff_forall_not_mem.mpr ?_)
    intro address listed
    exact List.find?_eq_none.mp first address (mem_visits_of_mem_redexes listed)
      (isRedexAt_iff.mpr listed)

/-- **Selection is a search.** What a policy picks from the redexes of a term is the first redex
that its search of the term visits, and nothing only if there is no redex; the search visits exactly
the subterms. From any list of candidates, in any order and with repetitions, a policy picks one that
no other is around, or inside, with all others of that kind on its other side. -/
theorem select_searches (policy : Policy) :
    (∀ (env : Environment) (t : Term),
      policy.select (env.redexes t) = (t.visits policy).find? (env.isRedexAt t) ∧
      (policy.select (env.redexes t) = none ↔
        ∀ address redex, env.classify t address ≠ .ok (.ok redex)) ∧
      ∀ address, address ∈ t.visits policy ↔ ∃ sub, t.subterm address = .ok sub) ∧
    ∀ candidates : List Address, candidates ≠ [] →
      ∃ address, policy.select candidates = some address ∧ policy.Picks candidates address := by
  refine ⟨?_, fun candidates => exists_select policy⟩
  intro env t
  refine ⟨select_redexes policy env t, ?_, ?_⟩
  · simp only [select_eq_none_iff, List.eq_nil_iff_forall_not_mem, mem_redexes_iff_classify,
      not_exists]
  · intro address
    rw [Term.mem_visits]
    constructor
    · rintro ⟨binders, sub, path⟩
      exact ⟨sub, path.subterm_eq⟩
    · rintro ⟨sub, found⟩
      obtain ⟨binders, path⟩ := Term.Path.of_subterm found
      exact ⟨binders, sub, path⟩

/-- Each policy finds another redex of `((λx.(λy.y) x) a) ((λz.(λw.w) z) b)`. The candidates of the
second part are not in order, and one comes twice. -/
theorem select_searches_apart :
    let t : Term := .app
      (.app (.lam "x" (.app (.lam "y" (.var "y" 1)) (.var "x" 1))) (.free "a"))
      (.app (.lam "z" (.app (.lam "w" (.var "w" 1)) (.var "z" 1))) (.free "b"))
    let found (policy : Policy) := (t.visits policy).find? (Environment.empty.isRedexAt t)
    let candidates : List Address := [[.arg], [.func, .body], [.arg], [.func]]
    found ⟨.outermost, .leftmost⟩ = some [.func] ∧
    found ⟨.innermost, .leftmost⟩ = some [.func, .func, .body] ∧
    found ⟨.outermost, .rightmost⟩ = some [.arg] ∧
    found ⟨.innermost, .rightmost⟩ = some [.arg, .func, .body] ∧
    candidates ≠ [] ∧ (applicativeOrder.select candidates) = some [.func, .body] ∧
      applicativeOrder.Picks candidates [.func, .body] := by
  intro t found candidates
  have eq (policy : Policy) : policy.select (Environment.empty.redexes t) = found policy :=
    ((select_searches policy).1 Environment.empty t).1
  have nonempty : candidates ≠ [] := List.cons_ne_nil _ _
  obtain ⟨address, selected, picks⟩ := (select_searches applicativeOrder).2 candidates nonempty
  have inner : applicativeOrder.select candidates = some [.func, .body] := by decide +kernel
  cases selected.symm.trans inner
  refine ⟨?_, ?_, ?_, ?_, nonempty, inner, picks⟩
  · rw [← eq]
    decide +kernel
  · rw [← eq]
    decide +kernel
  · rw [← eq]
    decide +kernel
  · rw [← eq]
    decide +kernel

end Policy

end LambdaWorkbench
