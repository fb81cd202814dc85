import LambdaWorkbench.Proofs.Term.Grouping
import LambdaWorkbench.Proofs.Term.WellNamed
import LambdaWorkbench.Term.Render
import Mathlib.Control.Monad.Basic

/-! # Reading back what is printed

A printed term is a list of trees that spells the term, and the items that spell a term parse to
it. Where a term may go without parentheses depends on two things only: whether it is an argument,
since a list associates to the left, and whether it is the last thing in its list, since the body
of a lambda goes on to the end.
-/

namespace LambdaWorkbench

open Shorthand Sexpr

namespace Term

/-! ## Spellings -/

/-- The items spell a term inside a list: as the function or the whole of it or, if `argument`, as
an argument there. Only if `last` nothing may follow them in the list. -/
inductive Spells : Bool → Bool → Term → List Sexpr → Prop
  | var {argument last : Bool} {name : String} {index : Nat} :
      name ≠ lambdaWord → Spells argument last (var name index) [.atom name]
  | group {argument last : Bool} {t : Term} {items : List Sexpr} :
      Spells false true t items → Spells argument last t [.list items]
  | lam {argument : Bool} {param : String} {body : Term} {items : List Sexpr} :
      Spells false true body items →
      Spells argument true (lam param body) (.atom lambdaWord :: .list [.atom param] :: items)
  | app {last : Bool} {func arg : Term} {front back : List Sexpr} :
      Spells false false func front → Spells true last arg back →
      Spells false last (app func arg) (front ++ back)

variable {t : Term} {argument last : Bool} {items : List Sexpr}

theorem Spells.of_argument (h : Spells true last t items) : Spells argument last t items := by
  cases h with
  | var notWord => exact .var notWord
  | group inner => exact .group inner
  | lam inner => exact .lam inner

section Parsing

variable {scope : List String} {item : Sexpr} {param : String} {arg body : Term}

theorem ofItems_cons (notWord : startsLambda item = false) (eq : ofSexpr scope item = .ok t)
    (rest : List Sexpr) : ofItems scope (item :: rest) = applyItems scope t rest := by
  rw [ofItems_cons_eq notWord, eq]
  rfl

theorem applyItems_cons (notWord : startsLambda item = false)
    (eq : ofSexpr scope item = .ok arg) (func : Term) (rest : List Sexpr) :
    applyItems scope func (item :: rest) = applyItems scope (.app func arg) rest := by
  rw [applyItems_cons_eq notWord, eq]
  rfl

theorem applyItems_lambdaWord (eq : ofLambda scope items = .ok arg) (func : Term) :
    applyItems scope func (.atom lambdaWord :: items) = .ok (.app func arg) := by
  rw [applyItems_lambda, eq]
  rfl

theorem ofLambda_single (eq : ofItems (param :: scope) items = .ok body) :
    ofLambda scope (.list [.atom param] :: items) = .ok (.lam param body) := by
  have inner : ofItems ([param].reverse ++ scope) items = .ok body := eq
  simp only [ofLambda, paramNames, bind, Except.bind, pure, Except.pure, inner]
  rfl

end Parsing

/-- Items that spell a term parse to it: at the head of a list it is the function so far, and
after a function it is the next argument. -/
theorem Spells.parse (h : Spells argument last t items) (scope : List String) (rest : List Sexpr)
    (ends : last = true → rest = []) :
    ofItems scope (items ++ rest) = applyItems scope (t.reindexIn scope) rest ∧
    (argument = true → ∀ func, applyItems scope func (items ++ rest) =
      applyItems scope (.app func (t.reindexIn scope)) rest) := by
  induction h generalizing scope rest with
  | @var _ _ name index notWord =>
    have item : startsLambda (.atom name) = false := beq_eq_false_iff_ne.mpr notWord
    have eq : ofSexpr scope (.atom name) = .ok ((Term.var name index).reindexIn scope) := by
      rw [ofSexpr, reindexIn]
    exact ⟨ofItems_cons item eq rest, fun _ func => applyItems_cons item eq func rest⟩
  | @group _ _ t items _ ih =>
    have eq : ofSexpr scope (.list items) = .ok (t.reindexIn scope) := by
      have whole := (ih scope [] fun _ => rfl).1
      rw [List.append_nil, applyItems] at whole
      rw [ofSexpr, whole]
    exact ⟨ofItems_cons rfl eq rest, fun _ func => applyItems_cons rfl eq func rest⟩
  | @lam _ param body items _ ih =>
    -- a lambda without parentheses takes all that follows it in its list
    obtain rfl := ends rfl
    have whole := (ih (param :: scope) [] fun _ => rfl).1
    rw [List.append_nil, applyItems] at whole
    have eq := ofLambda_single whole
    rw [List.append_nil, applyItems]
    refine ⟨(ofItems_lambda _).trans eq, fun _ func => ?_⟩
    rw [applyItems]
    exact applyItems_lambdaWord eq func
  | @app last func arg front back _ _ ihf iha =>
    refine ⟨?_, by simp⟩
    rw [List.append_assoc, (ihf scope (back ++ rest) (by simp)).1,
      (iha scope rest ends).2 rfl, reindexIn]

/-! ## Printing -/

/-- A text is written with the tokens of the items, whatever starts apart after it. -/
def Prints (text : String) (items : List Sexpr) : Prop :=
  ∀ back, StartsApart back →
    Token.ofChars (expandChars false (text.toList ++ back)) =
      itemTokens items ++ Token.ofChars (expandChars false back)

variable {text text' name param : String} {front back : List Sexpr}

theorem Prints.atom (h : Readable name) : Prints name [.atom name] := by
  intro back apart
  rw [expandChars_append_of_plain h.plain apart,
    Token.ofChars_append h.nonempty h.atomic (startsApart_expandChars apart)]
  simp

theorem Prints.append (h : Prints text front) (h' : Prints text' back) :
    Prints (text ++ " " ++ text') (front ++ back) := by
  intro rest apart
  have space : isAtomChar ' ' = false := by decide
  have whole : (text ++ " " ++ text').toList ++ rest =
      text.toList ++ ' ' :: (text'.toList ++ rest) := by simp
  rw [whole, h _ (startsApart_cons.mpr space), expandChars_separator space, Token.ofChars_space,
    h' rest apart, itemTokens_append, List.append_assoc]

theorem Prints.parens (h : Prints text items) : Prints ("(" ++ text ++ ")") [.list items] := by
  intro rest apart
  have opens : isAtomChar '(' = false := by decide
  have closes : isAtomChar ')' = false := by decide
  have whole : ("(" ++ text ++ ")").toList ++ rest = '(' :: (text.toList ++ ')' :: rest) := by
    simp
  rw [whole, expandChars_separator opens, Token.ofChars_opening,
    h _ (startsApart_cons.mpr closes), expandChars_separator closes, Token.ofChars_closing]
  simp

theorem readable_lambdaWord : Readable lambdaWord :=
  .of_canBind (by decide)

/-- The word `lambda`, a parameter and a body. -/
theorem Prints.word (hp : Readable param) (h : Prints text items) :
    Prints ("lambda" ++ " " ++ ("(" ++ param ++ ")") ++ " " ++ text)
      (.atom lambdaWord :: .list [.atom param] :: items) :=
  ((Prints.atom readable_lambdaWord).append (Prints.atom hp).parens).append h

theorem Prints.shorthand (hp : canBind param = true) (h : Prints text items) :
    Prints ("λ" ++ param ++ "." ++ text)
      (.atom lambdaWord :: .list [.atom param] :: items) := by
  intro back apart
  have whole : ("λ" ++ param ++ "." ++ text).toList ++ back =
      'λ' :: (param.toList ++ '.' :: (text.toList ++ back)) := by simp
  rw [whole, expandChars_binder hp, ← Prints.word (.of_canBind hp) h back apart]
  simp

theorem Prints.wordLambda (hp : Readable param) (h : Prints text items) :
    Prints (wordLambda param text) [.list (.atom lambdaWord :: .list [.atom param] :: items)] := by
  have whole : Term.wordLambda param text =
      "(" ++ ("lambda" ++ " " ++ ("(" ++ param ++ ")") ++ " " ++ text) ++ ")" := by
    rw [← String.toList_inj]
    simp [Term.wordLambda]
  rw [whole]
  exact (Prints.word hp h).parens

/-- The text is written with items that spell the term. -/
def PrintsAs (argument last : Bool) (t : Term) (text : String) : Prop :=
  ∃ items, Prints text items ∧ Spells argument last t items

namespace PrintsAs

variable {index : Nat} {func arg body : Term}

theorem of_argument (h : PrintsAs true last t text) : PrintsAs argument last t text := by
  obtain ⟨items, prints, spells⟩ := h
  exact ⟨items, prints, spells.of_argument⟩

theorem var (h : VariableName name) : PrintsAs argument last (.var name index) name :=
  ⟨[.atom name], .atom h.readable, .var h.notWord⟩

theorem parens (h : PrintsAs false true t text) :
    PrintsAs argument last t ("(" ++ text ++ ")") := by
  obtain ⟨items, prints, spells⟩ := h
  exact ⟨[.list items], prints.parens, .group spells⟩

theorem app (hf : PrintsAs false false func text) (ha : PrintsAs true last arg text') :
    PrintsAs false last (.app func arg) (text ++ " " ++ text') := by
  obtain ⟨front, printsFunc, spellsFunc⟩ := hf
  obtain ⟨back, printsArg, spellsArg⟩ := ha
  exact ⟨front ++ back, printsFunc.append printsArg, .app spellsFunc spellsArg⟩

theorem lam (hp : canBind param = true) (h : PrintsAs false true body text) :
    PrintsAs argument true (.lam param body) ("λ" ++ param ++ "." ++ text) := by
  obtain ⟨items, prints, spells⟩ := h
  exact ⟨_, prints.shorthand hp, .lam spells⟩

theorem wordLambda (hp : Readable param) (h : PrintsAs false true body text) :
    PrintsAs argument last (.lam param body) (wordLambda param text) := by
  obtain ⟨items, prints, spells⟩ := h
  exact ⟨_, prints.wordLambda hp, .group (.lam spells)⟩

/-- A lambda in the shorthand has parentheses unless it is the last thing in its list. -/
theorem parenthesized (hp : canBind param = true) (h : PrintsAs false true body text)
    {needed : Bool} (free : needed = false → last = true) :
    PrintsAs argument last (.lam param body)
      (parenthesized needed ("λ" ++ param ++ "." ++ text)) := by
  cases needed with
  | true => exact (h.lam hp).parens
  | false =>
    obtain rfl := free rfl
    exact h.lam hp

end PrintsAs

theorem printsAs_renderNamed (h : t.WellNamed) (applied : Bool) :
    PrintsAs true (!applied) t (t.renderNamed applied) := by
  induction t generalizing applied with
  | var name index => exact .var h
  | lam param body ih =>
    have inner : PrintsAs false true body _ := (ih h.2 false).of_argument
    rw [renderNamed]
    split
    · rename_i binds
      exact .parenthesized binds inner (by simp)
    · exact .wordLambda h.1 inner
  | app func arg ihf iha =>
    have whole : (Term.app func arg).renderNamed applied =
        "(" ++ (func.renderNamed true ++ " " ++ arg.renderNamed false) ++ ")" := by
      simp only [renderNamed, String.append_assoc]
    rw [whole]
    exact ((ihf h.1 true).of_argument.app (iha h.2 false)).parens

theorem printsAs_renderCompact (h : t.WellNamed) (place : Place) :
    PrintsAs place.argument place.last t (t.renderCompact place) := by
  induction t generalizing place with
  | var name index => exact .var h
  | lam param body ih =>
    have inner := ih h.2 .top
    rw [renderCompact]
    split
    · rename_i binds
      exact .parenthesized binds inner (by simp)
    · exact .wordLambda h.1 inner
  | app func arg ihf iha =>
    have inner := (ihf h.1 .func).app (iha h.2 (.arg (place.argument || place.last)))
    obtain ⟨applied, argument, last⟩ := place
    cases argument with
    | true => exact inner.parens
    | false => exact inner

theorem printsAs_render (h : t.WellNamed) {style : Style}
    (byName : style ∈ [Style.named, Style.compact]) : PrintsAs false true t (t.render style) := by
  simp only [List.mem_cons, List.not_mem_nil, or_false] at byName
  rcases byName with rfl | rfl
  · exact (printsAs_renderNamed h false).of_argument
  · exact printsAs_renderCompact h .top

theorem Prints.reading_eq (h : Prints text items) : reading (expand text) = ⟨items, .balanced⟩ := by
  refine Sexpr.reading_eq ?_
  have whole := h [] startsApart_nil
  rw [List.append_nil] at whole
  rw [expand, String.toList_ofList, whole]
  simp [expandChars]

/-- A text parses, by either parser, to what its items stand for. -/
theorem Prints.parse_eq (h : Prints text items) (eq : ofItems [] items = .ok t) :
    parse text = .ok t ∧ parseStrict text = .ok t := by
  have read := h.reading_eq
  have whole : ofSexpr [] (.list items) = .ok t := by rw [ofSexpr, eq]
  constructor
  · rw [parse, Sexpr.read, read, whole]
  · rw [parseStrict, readStrict, read, Sexpr.read, read]
    exact whole

/-- A text written with items that spell a term parses to the term, with its indices. -/
theorem PrintsAs.parse_eq (h : PrintsAs false true t text) :
    parse text = .ok t.reindex ∧ parseStrict text = .ok t.reindex := by
  obtain ⟨items, prints, spells⟩ := h
  refine prints.parse_eq ?_
  have whole := (spells.parse [] [] fun _ => rfl).1
  rw [List.append_nil, applyItems] at whole
  exact whole

/-- **What is printed is read back.** Parsing yields well-named terms and reduction keeps them
so; in each named style a well-named term is printed as a balanced text that parses to the same
term, names included, with its indices worked out. -/
theorem printing_round_trip :
    (∀ text t, parse text = .ok t ∨ parseStrict text = .ok t → t.WellNamed) ∧
    (∀ (env : Environment) (t : Term) address u, env.WellNamed → t.WellNamed →
      env.reduceAt t address = .ok (some u) → u.WellNamed) ∧
    ∀ (t : Term), t.WellNamed → ∀ style ∈ [Style.named, Style.compact],
      parse (t.render style) = .ok t.reindex ∧ parseStrict (t.render style) = .ok t.reindex := by
  refine ⟨?_, fun env t address u he ht => he.reduceAt ht, ?_⟩
  · intro text t parsed
    rcases parsed with tolerant | strict
    · exact wellNamed_parse tolerant
    · exact wellNamed_parse (parse_of_parseStrict strict)
  · intro t named style byName
    exact (printsAs_render named byName).parse_eq

/-- A parameter with a dot is printed with the word `lambda`, and a definition with a free `y` is
looked up below a lambda that binds `y`. -/
theorem printing_round_trip_dotted :
    let env := Environment.empty.insert "F" (free "y")
    let t : Term := .app (.lam "a.b" (.var "a.b" 1)) (.lam "y" (.app (free "F") (.var "y" 1)))
    let u : Term := .app (.lam "a.b" (.var "a.b" 1)) (.lam "y'" (.app (free "y") (.var "y'" 1)))
    parse "(lambda (a.b) a.b) λy.F y" = .ok t ∧ t.WellNamed ∧ env.WellNamed ∧
      env.reduceAt t [.arg, .body, .func] = .ok (some u) ∧ u.WellNamed ∧
      u.render .compact = "(lambda (a.b) a.b) λy'.y y'" ∧
      parse (u.render .compact) = .ok u ∧ parseStrict (u.render .compact) = .ok u := by
  intro env t u
  have parsed : parse "(lambda (a.b) a.b) λy.F y" = .ok t := by decide +kernel
  obtain ⟨parses, steps, prints⟩ := printing_round_trip
  have named : t.WellNamed := parses _ t (.inl parsed)
  have defined : env.WellNamed := by
    intro name term found
    have y : parse "y" = .ok (free "y") := by decide +kernel
    rw [Environment.get?_insert] at found
    split at found
    · cases found
      exact parses "y" _ (.inl y)
    · cases found
  have step : env.reduceAt t [.arg, .body, .func] = .ok (some u) := by decide +kernel
  have kept : u.WellNamed := steps env t _ u defined named step
  have indexed : u.reindex = u := rfl
  obtain ⟨tolerant, strict⟩ := prints u kept .compact (by decide)
  rw [indexed] at tolerant strict
  exact ⟨parsed, named, defined, step, kept, rfl, tolerant, strict⟩

end Term

end LambdaWorkbench
