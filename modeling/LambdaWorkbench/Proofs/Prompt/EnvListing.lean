import LambdaWorkbench.Prompt.Line
import LambdaWorkbench.Proofs.Environment.Listing
import LambdaWorkbench.Proofs.Prompt.Outcome

/-! # The list of definitions at the prompt

What `:env` prints is the list of definitions, and that list can be loaded back.
-/

namespace LambdaWorkbench.Prompt

open Environment Eval

theorem evalLine_env (setting : Setting) : evalLine setting ":env" = doEnv :=
  rfl

/-- The definitions are printed one to a line, in their order. -/
theorem returns_doEnv (desk : Desk) :
    Returns doEnv desk () { desk with
      printed := desk.printed ++ (desk.session.env.listing desk.session.style).toArray } :=
  Returns.session_bind <| returns_forM_say (fun entry : String × Term =>
    entry.1 ++ " = " ++ desk.session.render entry.2) desk.session.env.entries desk

/-- **The list of definitions can be loaded back.** Let the terms of an environment be parsed terms,
let its names be atoms, and let neither a name nor a name in a term have an equality sign or a hash
sign in it. Then `:env` prints one line for each definition, and in a named style the text of these
lines makes an environment of the same names in the same order with equal terms. -/
theorem env_listing_loads (env : Environment)
    (listable : ∀ entry ∈ env.entries, Listable entry.1 entry.2) :
    ∀ style ∈ [Style.named, Style.compact],
      (∀ setting desk, desk.session.env = env → desk.session.style = style →
        Returns (evalLine setting ":env") desk ()
          { desk with printed := desk.printed ++ (env.listing style).toArray }) ∧
      ofSource (Text.unlines (env.listing style)) = .ok (env.withLimit none) := by
  intro style byName
  constructor
  · intro setting desk sameEnv sameStyle
    rw [evalLine_env, ← sameEnv, ← sameStyle]
    exact returns_doEnv desk
  · exact ofSource_listing byName listable

/-- A dot, a lambda sign and a colon in names of definitions, and a parameter with a dot. -/
theorem env_listing_loads_signs :
    let dotted : Term := .lam "x.y" (.lam "z" (.app (.var "x.y" 2) (.free "λ:")))
    let env := ((empty.insert "a.b" dotted).insert "λ:" (.app (.free "a.b") (.free "7"))).withLimit
      (some 5)
    let setting : Setting := ⟨fun _ => .ok "", 100, false⟩
    let desk : Desk := ⟨{ Session.new env with style := .compact }, #[]⟩
    let listing := ["a.b = (lambda (x.y) λz.x.y λ:)", "λ: = a.b 7"]
    (∀ entry ∈ env.entries, Listable entry.1 entry.2) ∧
      Returns (evalLine setting ":env") desk () { desk with printed := listing.toArray } ∧
      ofSource (Text.unlines listing) = .ok (env.withLimit none) := by
  intro dotted env setting desk listing
  have listable : ∀ entry ∈ env.entries, Listable entry.1 entry.2 := by
    have entries : env.entries = [("a.b", dotted), ("λ:", .app (.free "a.b") (.free "7"))] := rfl
    rw [entries, List.forall_mem_cons, List.forall_mem_singleton]
    constructor
    · have parsed : Term.parse "(lambda (x.y) λz.x.y λ:)" = .ok dotted := by decide +kernel
      exact ⟨by decide, by decide, ⟨_, parsed⟩, by decide⟩
    · have parsed : Term.parse "a.b 7" = .ok (.app (.free "a.b") (.free "7")) := by decide +kernel
      exact ⟨by decide, by decide, ⟨_, parsed⟩, by decide⟩
  obtain ⟨prints, loads⟩ := env_listing_loads env listable .compact (by decide)
  exact ⟨listable, prints setting desk rfl rfl, loads⟩

end LambdaWorkbench.Prompt
