import LambdaWorkbench.Proofs.Sexpr.Pairs
import LambdaWorkbench.Proofs.Term.RoundTrip

/-! # The parentheses of compact output

Compact output is to have the fewest parentheses. It is written with names, shorthands, applications
and parentheses, and without one of its pairs it still is. A text of this kind parses, and what it
parses to is printed with at most the pairs of the text. So a text without one of the pairs that
a term is printed with stands for another term.
-/

namespace LambdaWorkbench

open Shorthand Sexpr

namespace Term

/-! ## Pairs that are printed -/

/-- The names that the lambdas of a term bind, in the order of the text and with repetitions. -/
def params : Term → List String
  | var _ _ => []
  | lam param body => param :: body.params
  | app func arg => func.params ++ arg.params

/-- The pairs of parentheses in compact output, where the shorthand can bind all parameters. -/
def pairs (place : Place) : Term → Nat
  | var _ _ => 0
  | lam _ body => (place.applied || !place.last).toNat + body.pairs .top
  | app func arg =>
    place.argument.toNat + (func.pairs .func + arg.pairs (.arg (place.argument || place.last)))

variable {t u : Term} {scope scope' : List String}

theorem pairs_arg_le (t : Term) (last : Bool) :
    t.pairs (.arg last) ≤ t.pairs (.arg true) + 1 := by
  cases t with
  | var name index => exact Nat.zero_le _
  | lam param body => cases last <;> simp [pairs, Place.arg, Nat.add_comm]
  | app func arg => simp [pairs, Place.arg]

/-- In any place a term has at most one pair more than by itself. -/
theorem pairs_le (t : Term) (place : Place) : t.pairs place ≤ t.pairs .top + 1 := by
  cases t with
  | var name index => exact Nat.zero_le _
  | lam param body =>
    have bound := Bool.toNat_le (place.applied || !place.last)
    simp only [pairs, Place.top, Bool.not_true, Bool.or_false, Bool.toNat_false]
    omega
  | app func arg =>
    have bound := pairs_arg_le arg place.last
    cases argument : place.argument with
    | true => simp [pairs, Place.top, argument, Nat.add_comm]
    | false =>
      simp only [pairs, Place.top, argument, Bool.false_or, Bool.toNat_false]
      omega

theorem pairs_eq_of_alphaEqIn (h : alphaEqIn scope scope' t u = true) (place : Place) :
    t.pairs place = u.pairs place := by
  induction t generalizing u scope scope' place with
  | var name index =>
    cases u with
    | var name' index' => rfl
    | lam param' body' => cases h
    | app func' arg' => cases h
  | lam param body ih =>
    cases u with
    | var name' index' => cases h
    | lam param' body' => rw [pairs, pairs, ih h]
    | app func' arg' => cases h
  | app func arg ihf iha =>
    cases u with
    | var name' index' => cases h
    | lam param' body' => cases h
    | app func' arg' =>
      obtain ⟨inFunc, inArg⟩ := Bool.and_eq_true_iff.mp h
      rw [pairs, pairs, ihf inFunc, iha inArg]

/-! ## Pairs that are read -/

/-- The place at the head of a list, before the other items. -/
def Place.head : List Sexpr → Place
  | [] => .top
  | _ :: _ => .func

theorem pairs_app_head (func arg : Term) (rest : List Sexpr) :
    (app func arg).pairs (.head rest) = func.pairs .func + arg.pairs (.arg rest.isEmpty) := by
  cases rest <;> simp [pairs, Place.head, Place.top, Place.func]

/-- Any function can be applied to the items, which brings in at most so many pairs. -/
def Continues (n : Nat) (items : List Sexpr) : Prop :=
  ∀ scope func, ∃ u, applyItems scope func items = .ok u ∧
    u.pairs .top ≤ func.pairs (.head items) + n

/-- The items can be read wherever a list goes on: from its head on, and after a function. They
bring in at most so many pairs. -/
def Parses (n : Nat) (items : List Sexpr) : Prop :=
  ∀ m rest, Continues m rest →
    (∀ scope, ∃ u, ofItems scope (items ++ rest) = .ok u ∧ u.pairs .top ≤ n + m) ∧
    Continues (n + m) (items ++ rest)

variable {n m : Nat} {items front back : List Sexpr} {name param : String}

theorem continues_nil : Continues 0 [] := by
  intro scope func
  exact ⟨func, by rw [applyItems], Nat.le_refl _⟩

theorem Parses.ofItems_eq (h : Parses n items) (scope : List String) :
    ∃ u, ofItems scope items = .ok u ∧ u.pairs .top ≤ n := by
  have whole := (h 0 [] continues_nil).1 scope
  rwa [List.append_nil] at whole

theorem Parses.single {item : Sexpr} (notWord : startsLambda item = false)
    (h : ∀ scope, ∃ t, ofSexpr scope item = .ok t ∧ ∀ place, t.pairs place ≤ n) :
    Parses n [item] := by
  intro m rest continues
  constructor
  · intro scope
    obtain ⟨t, eq, bound⟩ := h scope
    obtain ⟨u, done, bound'⟩ := continues scope t
    have first := bound (.head rest)
    exact ⟨u, (ofItems_cons notWord eq rest).trans done, by omega⟩
  · intro scope func
    obtain ⟨t, eq, bound⟩ := h scope
    obtain ⟨u, done, bound'⟩ := continues scope (app func t)
    have next := bound (.arg rest.isEmpty)
    rw [pairs_app_head] at bound'
    refine ⟨u, (applyItems_cons notWord eq func rest).trans done, ?_⟩
    change u.pairs .top ≤ func.pairs .func + (n + m)
    omega

theorem Parses.atom (notWord : name ≠ lambdaWord) : Parses 0 [.atom name] := by
  refine .single (beq_eq_false_iff_ne.mpr notWord) fun scope => ?_
  exact ⟨.var name (scopeIndex scope name), by rw [ofSexpr], fun _ => Nat.le_refl 0⟩

theorem Parses.list (h : Parses n items) : Parses (n + 1) [.list items] := by
  refine .single rfl fun scope => ?_
  obtain ⟨t, eq, bound⟩ := h.ofItems_eq scope
  refine ⟨t, by rw [ofSexpr, eq], fun place => ?_⟩
  exact (pairs_le t place).trans (Nat.add_le_add_right bound 1)

theorem Parses.append (hf : Parses n front) (hb : Parses m back) :
    Parses (n + m) (front ++ back) := by
  intro k rest continues
  -- the second part goes on after the first one, and the rest after both
  rw [List.append_assoc, Nat.add_assoc]
  exact hf (m + k) (back ++ rest) (hb k rest continues).2

/-- The body of a lambda without parentheses takes in the rest of the list. -/
theorem Parses.lam (h : Parses n items) (param : String) :
    Parses n (.atom lambdaWord :: .list [.atom param] :: items) := by
  intro m rest continues
  have inner : ∀ scope, ∃ t, ofLambda scope (.list [.atom param] :: (items ++ rest)) = .ok t ∧
      ∀ place : Place, place.applied = false → place.last = true → t.pairs place ≤ n + m := by
    intro scope
    obtain ⟨body, eq, bound⟩ := (h m rest continues).1 (param :: scope)
    refine ⟨_, ofLambda_single eq, fun place unapplied last => ?_⟩
    simpa [pairs, unapplied, last] using bound
  constructor
  · intro scope
    obtain ⟨t, eq, bound⟩ := inner scope
    exact ⟨t, (ofItems_lambda _).trans eq, bound .top rfl rfl⟩
  · intro scope func
    obtain ⟨t, eq, bound⟩ := inner scope
    refine ⟨_, applyItems_lambdaWord eq func, ?_⟩
    change (app func t).pairs (.head []) ≤ func.pairs .func + (n + m)
    rw [pairs_app_head]
    exact Nat.add_le_add_left (bound (.arg true) rfl rfl) _

/-! ## Texts -/

/-- The text is written with names, shorthands, applications and so many pairs of parentheses. -/
inductive Written : Nat → String → Prop
  | name {name : String} : VariableName name → Written 0 name
  | parens {n : Nat} {text : String} : Written n text → Written (n + 1) ("(" ++ text ++ ")")
  | lam {n : Nat} {param text : String} :
      canBind param = true → Written n text → Written n ("λ" ++ param ++ "." ++ text)
  | app {n m : Nat} {text text' : String} :
      Written n text → Written m text' → Written (n + m) (text ++ " " ++ text')

variable {text : String}

theorem Written.parenthesized (h : Written n text) (needed : Bool) :
    Written (needed.toNat + n) (parenthesized needed text) := by
  cases needed with
  | true => exact Nat.add_comm n 1 ▸ h.parens
  | false => exact (Nat.zero_add n).symm ▸ h

theorem written_renderCompact (h : t.WellNamed) (binds : ∀ param ∈ t.params, canBind param = true)
    (place : Place) : Written (t.pairs place) (t.renderCompact place) := by
  induction t generalizing place with
  | var name index => exact .name h
  | lam param body ih =>
    obtain ⟨bindsHere, bindsBody⟩ := List.forall_mem_cons.mp binds
    rw [renderCompact, pairs, if_pos bindsHere]
    exact (Written.lam bindsHere (ih h.2 bindsBody .top)).parenthesized _
  | app func arg ihf iha =>
    obtain ⟨bindsFunc, bindsArg⟩ := List.forall_mem_append.mp binds
    rw [renderCompact, pairs]
    exact ((ihf h.1 bindsFunc .func).app (iha h.2 bindsArg _)).parenthesized _

theorem Written.parses (h : Written n text) : ∃ items, Prints text items ∧ Parses n items := by
  induction h with
  | name named => exact ⟨_, .atom named.readable, .atom named.notWord⟩
  | parens _ ih =>
    obtain ⟨items, prints, parses⟩ := ih
    exact ⟨_, prints.parens, parses.list⟩
  | lam binds _ ih =>
    obtain ⟨items, prints, parses⟩ := ih
    exact ⟨_, prints.shorthand binds, parses.lam _⟩
  | app _ _ ihf iha =>
    obtain ⟨front, printsFunc, parsesFunc⟩ := ihf
    obtain ⟨back, printsArg, parsesArg⟩ := iha
    exact ⟨_, printsFunc.append printsArg, parsesFunc.append parsesArg⟩

/-- A text parses to a term that is printed with at most the pairs of the text. -/
theorem Written.parse_eq (h : Written n text) :
    ∃ u, parse text = .ok u ∧ parseStrict text = .ok u ∧ u.pairs .top ≤ n := by
  obtain ⟨items, prints, parses⟩ := h.parses
  obtain ⟨u, eq, bound⟩ := parses.ofItems_eq []
  obtain ⟨tolerant, strict⟩ := prints.parse_eq eq
  exact ⟨u, tolerant, strict, bound⟩

/-- No text with fewer pairs than the term is printed with parses to it. -/
theorem Written.pairs_le (h : Written n text) (parsed : parse text = .ok u)
    (same : u.alphaEq t = true) : t.pairs .top ≤ n := by
  obtain ⟨v, eq, -, bound⟩ := h.parse_eq
  cases parsed.symm.trans eq
  rwa [pairs_eq_of_alphaEqIn same] at bound

/-! ## Dropping a pair -/

theorem isAtomChar_of_binder (binds : canBind param = true) :
    ∀ c ∈ ("λ" ++ param ++ ".").toList, isAtomChar c = true := by
  have sign : ∀ c ∈ "λ".toList, isAtomChar c = true := List.all_eq_true.mp (by decide)
  have dot : ∀ c ∈ ".".toList, isAtomChar c = true := List.all_eq_true.mp (by decide)
  simp only [String.toList_append, List.forall_mem_append]
  exact ⟨⟨sign, (Readable.of_canBind binds).atomic⟩, dot⟩

theorem balanced_space : Balanced [' '] :=
  ⟨by decide, by decide⟩

theorem toList_parens (text : String) :
    ("(" ++ text ++ ")").toList = '(' :: (text.toList ++ [')']) := by
  simp

theorem toList_spaced (text text' : String) :
    (text ++ " " ++ text').toList = text.toList ++ ([' '] ++ text'.toList) := by
  simp

theorem Written.balanced (h : Written n text) : Balanced text.toList := by
  induction h with
  | name named => exact balanced_of_atomChars named.readable.atomic
  | parens _ ih =>
    rw [toList_parens]
    exact ih.parens
  | lam binds _ ih =>
    rw [String.toList_append]
    exact (balanced_of_atomChars (isAtomChar_of_binder binds)).append ih
  | app _ _ ihf iha =>
    rw [toList_spaced]
    exact ihf.append (balanced_space.append iha)

/-- A text without one of its pairs is written with one pair less. -/
theorem Written.dropsPair (h : Written n text) {cs : List Char}
    (drops : DropsPair text.toList cs) : ∃ m, n = m + 1 ∧ Written m (String.ofList cs) := by
  induction h generalizing cs with
  | name named => exact absurd drops (not_dropsPair_of_atomChars named.readable.atomic)
  | @parens n text inner ih =>
    rw [toList_parens] at drops
    -- the pair is the one around the text, or inside it
    obtain rfl | ⟨inside, dropsInside, rfl⟩ := inner.balanced.dropsPair_parens drops
    · exact ⟨n, rfl, by rwa [String.ofList_toList]⟩
    · obtain ⟨m, rfl, written⟩ := ih dropsInside
      have shape : String.ofList ('(' :: (inside ++ [')'])) =
          "(" ++ String.ofList inside ++ ")" := by simp [← String.toList_inj]
      exact ⟨m + 1, rfl, shape ▸ written.parens⟩
  | @lam n param text binds inner ih =>
    have sign := isAtomChar_of_binder binds
    rw [String.toList_append] at drops
    obtain ⟨_, inSign, -⟩ | ⟨body, inBody, rfl⟩ :=
      (balanced_of_atomChars sign).dropsPair_append drops
    · exact absurd inSign (not_dropsPair_of_atomChars sign)
    · obtain ⟨m, rfl, written⟩ := ih inBody
      have shape : String.ofList (("λ" ++ param ++ ".").toList ++ body) =
          "λ" ++ param ++ "." ++ String.ofList body := by simp [← String.toList_inj]
      exact ⟨m, rfl, shape ▸ .lam binds written⟩
  | @app n m text text' func arg ihf iha =>
    rw [toList_spaced] at drops
    obtain ⟨front, inFunc, rfl⟩ | ⟨spaced, inSpaced, rfl⟩ :=
      func.balanced.dropsPair_append drops
    · obtain ⟨k, rfl, written⟩ := ihf inFunc
      have shape : String.ofList (front ++ ([' '] ++ text'.toList)) =
          String.ofList front ++ " " ++ text' := by simp [← String.toList_inj]
      exact ⟨k + m, Nat.add_right_comm k 1 m, shape ▸ written.app arg⟩
    · obtain ⟨_, inSpace, -⟩ | ⟨back, inArg, rfl⟩ := balanced_space.dropsPair_append inSpaced
      · exact absurd inSpace (not_dropsPair (by decide))
      · obtain ⟨k, rfl, written⟩ := iha inArg
        have shape : String.ofList (text.toList ++ ([' '] ++ back)) =
            text ++ " " ++ String.ofList back := by simp [← String.toList_inj]
        exact ⟨n + k, rfl, shape ▸ func.app written⟩

/-- **No pair of parentheses in compact output can go.** Let a term be well named, with parameters
that the shorthand can bind. Its compact form parses to the term. Where two parentheses of that text
match, the text without them parses as well, but to a term that is not the same up to the names of
bound variables. -/
theorem compact_parentheses_needed (h : t.WellNamed)
    (binds : ∀ param ∈ t.params, canBind param = true) :
    parse (t.render .compact) = .ok t.reindex ∧
    ∀ before inside after, t.render .compact = before ++ "(" ++ inside ++ ")" ++ after →
      Balanced inside.toList →
      ∃ u, parse (before ++ inside ++ after) = .ok u ∧
        parseStrict (before ++ inside ++ after) = .ok u ∧ u.alphaEq t = false := by
  refine ⟨(printsAs_render h (by decide)).parse_eq.1, ?_⟩
  intro before inside after text matched
  have drops : DropsPair (t.render .compact).toList (before ++ inside ++ after).toList :=
    ⟨before.toList, inside.toList, after.toList, matched, by simp [text], by simp⟩
  obtain ⟨m, fewer, written⟩ := (written_renderCompact h binds .top).dropsPair drops
  rw [String.ofList_toList] at written
  obtain ⟨u, tolerant, strict, -⟩ := written.parse_eq
  refine ⟨u, tolerant, strict, Bool.eq_false_iff.mpr fun same => ?_⟩
  have enough := written.pairs_le tolerant same
  omega

/-- Without its own parentheses the lambda takes in the second argument, and without those of the
second argument there are three. -/
theorem compact_parentheses_needed_twice :
    let t : Term := app (app (free "f") (lam "x" (var "x" 1))) (app (free "g") (free "y"))
    t.WellNamed ∧ t.params = ["x"] ∧ t.render .compact = "f (λx.x) (g y)" ∧
      parse "f (λx.x) (g y)" = .ok t ∧
      (∃ u, parse "f λx.x (g y)" = .ok u ∧ parseStrict "f λx.x (g y)" = .ok u ∧
        u.alphaEq t = false) ∧
      ∃ u, parse "f (λx.x) g y" = .ok u ∧ parseStrict "f (λx.x) g y" = .ok u ∧
        u.alphaEq t = false := by
  intro t
  have named : t.WellNamed := by
    refine ⟨⟨?_, ?_, ?_⟩, ?_, ?_⟩
    · exact .of_canBind (by decide) (by decide)
    · exact .of_canBind (by decide)
    all_goals exact .of_canBind (by decide) (by decide)
  have binds : ∀ param ∈ t.params, canBind param = true := List.all_eq_true.mp (by decide)
  have text : t.render .compact = "f (λx.x) (g y)" := by decide +kernel
  have lambda : t.render .compact = "f " ++ "(" ++ "λx.x" ++ ")" ++ " (g y)" := text
  have application : t.render .compact = "f (λx.x) " ++ "(" ++ "g y" ++ ")" ++ "" := text
  have joined : "f " ++ "λx.x" ++ " (g y)" = "f λx.x (g y)" := by decide +kernel
  have joined' : "f (λx.x) " ++ "g y" ++ "" = "f (λx.x) g y" := by decide +kernel
  obtain ⟨whole, without⟩ := compact_parentheses_needed named binds
  have first := without _ _ _ lambda ⟨by decide, by decide⟩
  have second := without _ _ _ application ⟨by decide, by decide⟩
  rw [joined] at first
  rw [joined'] at second
  rw [text] at whole
  exact ⟨named, rfl, text, whole, first, second⟩

end Term

end LambdaWorkbench
