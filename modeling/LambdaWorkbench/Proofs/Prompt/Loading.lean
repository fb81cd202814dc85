import LambdaWorkbench.Prompt.Batch
import LambdaWorkbench.Proofs.Environment.DefinitionLine
import LambdaWorkbench.Proofs.Environment.Extension
import LambdaWorkbench.Proofs.Prompt.Outcome
import LambdaWorkbench.Proofs.Term.Blanks
import Mathlib.Control.Monad.Basic

/-! # Loading definitions

A file of definitions can be loaded as a whole, carried out line by line, or cut into definitions
that are added one after the other. A file that can be loaded leaves the same environment in each of
these ways. A file that cannot be loaded leaves everything as it was, whatever stands before its
fault.
-/

namespace LambdaWorkbench

open Environment

variable {source : String} {found : Environment} {pairs : List (String × String)}

theorem Environment.ofSource_eq_ok_iff :
    ofSource source = .ok found ↔
      ∃ pairs, definitions source = .ok pairs ∧ ofDefinitions pairs = .ok found := by
  constructor
  · exact Term.exists_ok_of_bind
  · rintro ⟨pairs, cut, defined⟩
    rw [ofSource, cut]
    exact defined

namespace Session

/-- A definition may be given with blank characters around its text. -/
theorem define_of_parse_trim {session : Session} {name text : String} {term : Term}
    (h : Term.parse (Text.trim text) = .ok term) :
    session.define name text =
      .ok (session.env.get? name, { session with env := session.env.insert name term }) := by
  rw [Term.parse_trim] at h
  rw [Session.define, Environment.define_of_parse h]

end Session

namespace Prompt

open Eval

variable {setting : Setting} {desk : Desk}

/-- The desk with another environment in its session. -/
def withEnv (desk : Desk) (env : Environment) : Desk :=
  { desk with session := { desk.session with env } }

/-- Lines of definitions are carried out by adding the definitions. -/
theorem returns_evalLinesFrom {number : Nat} {lines : List String} {env : Environment}
    (cut : definitionsFrom number lines = .ok pairs)
    (defined : desk.session.env.defineAll pairs = .ok env) :
    Returns (evalLinesFrom setting number lines) desk () (withEnv desk env) := by
  induction lines generalizing number pairs desk with
  | nil =>
    cases cut
    cases defined
    rfl
  | cons line rest ih =>
    rw [evalLinesFrom]
    obtain ⟨blank, later⟩ | ⟨name, text, others, inked, split, later, rfl⟩ :=
      definitionsFrom_cons cut
    · rw [if_pos blank]
      exact ih later defined
    · rw [if_neg (by simp [inked]), split]
      obtain ⟨term, parsed, last⟩ := exists_of_defineAll_cons defined
      have added : Returns (ask (·.define name text)) desk _ _ :=
        returns_ask (Session.define_of_parse_trim parsed)
      exact (added.during (.line number)).bind (ih later last)

/-- A file that can be read is loaded as an extension by its environment. -/
theorem returns_loadFile {files : Files} {file : String} (read : files file = .ok source)
    (loaded : ofSource source = .ok found) (desk : Desk) :
    Returns (loadFile files file) desk found.size
      (withEnv desk (desk.session.env.extend found)) := by
  rw [loadFile, during_ofExcept]
  refine Returns.ofExcept_bind read ?_
  rw [during_ofExcept]
  exact Returns.ofExcept_bind loaded rfl

theorem fails_loadFile {files : Files} {file : String} {cause : ParseError}
    (read : files file = .ok source) (h : ofSource source = .error cause) (desk : Desk) :
    Fails (loadFile files file) desk (.during (.loading file) (.parse cause)) desk := by
  rw [loadFile, during_ofExcept]
  refine Fails.ofExcept_bind read ?_
  rw [during_ofExcept]
  exact (fails_ofExcept h desk).bind

/-- **Loading is defining line by line.** If a source makes an environment, then to extend another
one by it is to add the definitions of the source in their order: the same names in the same order,
the same terms, the same limit. Carrying out the lines of the source and loading it as a file change
nothing but the environment of the session, and that in the same way; nothing is printed and nothing
fails. If a source does not make an environment, loading it fails and changes nothing at all. -/
theorem loading_defines_in_order (source : String) :
    (∀ found, ofSource source = .ok found →
      (∃ pairs, definitions source = .ok pairs ∧
        ∀ env : Environment, env.defineAll pairs = .ok (env.extend found)) ∧
      (∀ setting desk, Returns (evalSource setting source) desk ()
        (withEnv desk (desk.session.env.extend found))) ∧
      ∀ files file desk, files file = .ok source → Returns (loadFile files file) desk found.size
        (withEnv desk (desk.session.env.extend found))) ∧
    ∀ cause, ofSource source = .error cause →
      ∀ files file desk, files file = .ok source →
        Fails (loadFile files file) desk (.during (.loading file) (.parse cause)) desk := by
  constructor
  · intro found loaded
    obtain ⟨pairs, cut, defined⟩ := ofSource_eq_ok_iff.mp loaded
    refine ⟨⟨pairs, cut, defineAll_eq_extend defined⟩, ?_, ?_⟩
    · intro setting desk
      exact returns_evalLinesFrom cut (defineAll_eq_extend defined desk.session.env)
    · intro files file desk read
      exact returns_loadFile read loaded desk
  · intro cause h files file desk read
    exact fails_loadFile read h desk

/-- `A` is known before and keeps its place; `B` is defined twice, the first time for nothing. The
second file has a fault behind a definition. -/
theorem loading_defines_in_order_redefined :
    let source := "B := b # for now\nA = B B\n\n  B = \\x. x  "
    let found := (empty.insert "B" (.lam "x" (.var "x" 1))).insert "A"
      (.app (.free "B") (.free "B"))
    let env := (empty.insert "A" (.free "a")).insert "C" (.free "c")
    let files : Files := fun name => .ok (if name = "good" then source else "C = x\nB = ()")
    let setting : Setting := ⟨files, 100, false⟩
    let desk : Desk := ⟨{ Session.new env with history := some (.start (.free "t")) }, #["  t"]⟩
    let fault : ParseError := .inDefinition "B" .emptyExpression
    ofSource source = .ok found ∧
      (env.extend found).entries = [("A", .app (.free "B") (.free "B")), ("C", .free "c"),
        ("B", .lam "x" (.var "x" 1))] ∧
      (∃ pairs, definitions source = .ok pairs ∧ env.defineAll pairs = .ok (env.extend found)) ∧
      Returns (evalSource setting source) desk () (withEnv desk (env.extend found)) ∧
      Returns (loadFile files "good") desk 2 (withEnv desk (env.extend found)) ∧
      ofSource "C = x\nB = ()" = .error fault ∧
      Fails (loadFile files "bad") desk (.during (.loading "bad") (.parse fault)) desk := by
  intro source found env files setting desk fault
  have loaded : ofSource source = .ok found := by decide +kernel
  have faulty : ofSource "C = x\nB = ()" = .error fault := by decide +kernel
  obtain ⟨⟨pairs, cut, defined⟩, lines, file⟩ := (loading_defines_in_order source).1 found loaded
  have fails := (loading_defines_in_order "C = x\nB = ()").2 fault faulty files "bad" desk rfl
  exact ⟨loaded, rfl, ⟨pairs, cut, defined env⟩, lines setting desk, file files "good" desk rfl,
    faulty, fails⟩

end Prompt

end LambdaWorkbench
