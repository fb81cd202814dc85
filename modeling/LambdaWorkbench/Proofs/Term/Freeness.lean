import Mathlib.Data.Finset.Insert
import LambdaWorkbench.Proofs.Term.Indices

/-! # Free names and renaming

Whether a name is free can be asked of the term directly, which ends the search at a lambda of that
name; the free names can also be gathered in one walk that keeps a list of the parameters above.
Both come to the places where the name stands with no lambda of that name on the way. A renaming
changes the names at these places and nothing else, so a name that occurs nowhere can take the place
of another, and give it back.
-/

namespace LambdaWorkbench.Term

variable {t : Term} {name old new : String}

/-! ## Gathering -/

/-- Adds the free names of a term below lambdas that bind `bound` to the names found before. -/
def gatherFree (bound : List String) (found : Finset String) : Term → Finset String
  | var name _ => if name ∈ bound then found else insert name found
  | lam param body => gatherFree (param :: bound) found body
  | app func arg => gatherFree bound (gatherFree bound found func) arg

theorem mem_gatherFree {bound : List String} {found : Finset String} :
    name ∈ gatherFree bound found t ↔ name ∈ found ∨ name ∈ t.freeVars ∧ name ∉ bound := by
  induction t generalizing bound found with
  | var occurring index =>
    rw [gatherFree, freeVars, List.mem_singleton]
    split
    · rename_i isBound
      exact ⟨.inl, fun h => h.elim id fun both => absurd (both.1 ▸ isBound) both.2⟩
    · rename_i isFree
      rw [Finset.mem_insert, or_comm]
      exact or_congr_right ⟨fun same => ⟨same, same ▸ isFree⟩, And.left⟩
  | lam param body ih =>
    rw [gatherFree, ih, freeVars, List.mem_filter, decide_eq_true_eq, List.mem_cons, not_or,
      and_assoc]
  | app func arg ihf iha =>
    rw [gatherFree, iha, ihf, freeVars, List.mem_append, or_and_right, or_assoc]

theorem gatherFree_eq (t : Term) : t.gatherFree [] ∅ = t.freeVars.toFinset := by
  ext name
  simp [mem_gatherFree]

/-- A name is free where it stands at the end of a path that no lambda of that name is on. -/
theorem mem_freeVars_iff :
    name ∈ t.freeVars ↔
      ∃ address binders index, Path t address binders (var name index) ∧ name ∉ binders := by
  constructor
  · intro free
    induction t with
    | var occurring index =>
      obtain rfl := List.mem_singleton.mp free
      exact ⟨[], [], index, .root _, List.not_mem_nil⟩
    | lam param body ih =>
      rw [freeVars, List.mem_filter, decide_eq_true_eq] at free
      obtain ⟨address, binders, index, path, notBound⟩ := ih free.1
      exact ⟨.body :: address, param :: binders, index, .body path,
        List.not_mem_cons_of_ne_of_not_mem free.2 notBound⟩
    | app func arg ihf iha =>
      rcases List.mem_append.mp free with inFunc | inArg
      · obtain ⟨address, binders, index, path, notBound⟩ := ihf inFunc
        exact ⟨.func :: address, binders, index, .func path, notBound⟩
      · obtain ⟨address, binders, index, path, notBound⟩ := iha inArg
        exact ⟨.arg :: address, binders, index, .arg path, notBound⟩
  · rintro ⟨address, binders, index, path, notBound⟩
    exact path.mem_freeVars (List.mem_singleton.mpr rfl) notBound

/-! ## Shape -/

/-- The shape of a term: its tree with the indices, and every name left out. -/
def unnamed : Term → Term
  | var _ index => var "" index
  | lam _ body => lam "" body.unnamed
  | app func arg => app func.unnamed arg.unnamed

theorem unnamed_renameFree (old new : String) (t : Term) :
    (t.renameFree old new).unnamed = t.unnamed := by
  induction t with
  | var name index => rw [renameFree]; split <;> rfl
  | lam param body ih =>
    rw [renameFree]
    split
    · rfl
    · rw [unnamed, unnamed, ih]
  | app func arg ihf iha => rw [renameFree, unnamed, unnamed, ihf, iha]

/-! ## Renaming -/

theorem map_replace_eq_self {names : List String} (absent : old ∉ names) :
    (names.map fun name => if name = old then new else name) = names := by
  refine (List.map_congr_left fun name mem => if_neg ?_).trans (List.map_id' names)
  rintro rfl
  exact absent mem

/-- The free names are renamed one by one, in their order. -/
theorem freeVars_renameFree (fresh : new ∉ t.names) :
    (t.renameFree old new).freeVars =
      t.freeVars.map fun name => if name = old then new else name := by
  induction t with
  | var name index =>
    rw [renameFree]
    split <;> simp [freeVars, *]
  | lam param body ih =>
    rw [names, List.mem_cons, not_or] at fresh
    rw [renameFree]
    split
    · -- the lambda binds the old name, so it is not one of the free names
      rename_i same
      exact (map_replace_eq_self (by simp [freeVars, same])).symm
    · rename_i differ
      rw [freeVars, freeVars, ih fresh.2, List.filter_map]
      refine congrArg _ (List.filter_congr fun name _ => ?_)
      by_cases renamed : name = old
      · simp [renamed, fresh.1, Ne.symm differ]
      · simp [renamed]
  | app func arg ihf iha =>
    rw [names, List.mem_append, not_or] at fresh
    rw [renameFree, freeVars, freeVars, ihf fresh.1, iha fresh.2, List.map_append]

/-- Without a free occurrence of the old name there is nothing to rename. -/
theorem renameFree_eq_self (absent : old ∉ t.freeVars) : t.renameFree old new = t := by
  induction t with
  | var name index =>
    exact if_neg fun same => absent (List.mem_singleton.mpr same.symm)
  | lam param body ih =>
    rw [renameFree]
    split
    · rfl
    · rename_i differ
      rw [ih fun inBody => absent (List.mem_filter.mpr ⟨inBody, by simpa using Ne.symm differ⟩)]
  | app func arg ihf iha =>
    rw [freeVars, List.mem_append, not_or] at absent
    rw [renameFree, ihf absent.1, iha absent.2]

/-- A name that did not occur gives the place back. -/
theorem renameFree_renameFree (fresh : new ∉ t.names) :
    (t.renameFree old new).renameFree new old = t := by
  induction t with
  | var name index =>
    have other : name ≠ new := fun same => fresh (List.mem_singleton.mpr same.symm)
    rw [renameFree]
    split
    · rename_i same
      rw [renameFree, if_pos rfl, same]
    · rw [renameFree, if_neg other]
  | lam param body ih =>
    rw [renameFree]
    split
    · -- below a lambda of the old name nothing was renamed
      exact renameFree_eq_self fun free => fresh (mem_names_of_mem_freeVars free)
    · rw [names, List.mem_cons, not_or] at fresh
      rw [renameFree, if_neg (Ne.symm fresh.1), ih fresh.2]
  | app func arg ihf iha =>
    rw [names, List.mem_append, not_or] at fresh
    rw [renameFree, renameFree, ihf fresh.1, iha fresh.2]

/-- **Free names, asked for and gathered.** A name is found free in a term exactly if it is one of
the free names, and these are gathered by the walk that keeps the parameters above in a list. They
stand where no lambda on the way has their name, whatever the indices are. Renaming a name to one
that does not occur keeps the shape and the size, replaces that name among the free names, and is
undone by the opposite renaming. -/
theorem freeness_and_renaming_agree (t : Term) :
    (∀ name, t.hasFree name = true ↔ name ∈ t.freeVars) ∧
    t.gatherFree [] ∅ = t.freeVars.toFinset ∧
    (∀ name, name ∈ t.freeVars ↔ ∃ address binders index,
      t.subterm address = .ok (var name index) ∧ t.bindersAlong address = .ok binders ∧
        name ∉ binders) ∧
    (∀ u : Term, t.unindexed = u.unindexed →
      t.freeVars = u.freeVars ∧ ∀ name, t.hasFree name = u.hasFree name) ∧
    ∀ old new, new ∉ t.names →
      (t.renameFree old new).unnamed = t.unnamed ∧
      (t.renameFree old new).size = t.size ∧
      (t.renameFree old new).freeVars =
        t.freeVars.map (fun name => if name = old then new else name) ∧
      (t.renameFree old new).renameFree new old = t := by
  refine ⟨fun _ => hasFree_iff_mem_freeVars, gatherFree_eq t, ?_, ?_, ?_⟩
  · intro name
    rw [mem_freeVars_iff]
    constructor
    · rintro ⟨address, binders, index, path, notBound⟩
      exact ⟨address, binders, index, path.subterm_eq, path.bindersAlong_eq, notBound⟩
    · rintro ⟨address, binders, index, found, crossed, notBound⟩
      obtain ⟨binders', path⟩ := Path.of_subterm found
      obtain rfl : binders' = binders := Except.ok.inj (path.bindersAlong_eq.symm.trans crossed)
      exact ⟨address, binders', index, path, notBound⟩
  · intro u same
    constructor
    · rw [← freeVars_unindexed t, same, freeVars_unindexed]
    · intro name
      rw [← hasFree_unindexed name t, same, hasFree_unindexed]
  · intro old new fresh
    exact ⟨unnamed_renameFree old new t, size_renameFree old new t, freeVars_renameFree fresh,
      renameFree_renameFree fresh⟩

/-- In `(λx.x y (λy.y x)) x` the name `x` is free in one place of three, and `y` in one of two. -/
theorem freeness_and_renaming_agree_shadowed :
    let inner : Term := lam "y" (app (var "y" 1) (var "x" 2))
    let t : Term := app (lam "x" (app (app (var "x" 1) (free "y")) inner)) (free "x")
    let stale : Term := app (lam "x" (app (app (var "x" 0) (var "y" 7)) inner)) (var "x" 3)
    let renamed : Term := app (lam "x" (app (app (var "x" 1) (free "z")) inner)) (free "x")
    t.unindexed = stale.unindexed ∧ stale.freeVars = ["y", "x"] ∧ stale.hasFree "x" = true ∧
      "x" ∈ t.gatherFree [] ∅ ∧ "z" ∉ t.names ∧ t.renameFree "y" "z" = renamed ∧
      renamed.unnamed = t.unnamed ∧ renamed.size = t.size ∧ renamed.freeVars = ["z", "x"] ∧
      renamed.renameFree "z" "y" = t := by
  intro inner t stale renamed
  obtain ⟨asked, gathered, -, blind, renames⟩ := freeness_and_renaming_agree t
  have same : t.unindexed = stale.unindexed := by decide +kernel
  have free : t.freeVars = ["y", "x"] := by decide +kernel
  have fresh : "z" ∉ t.names := by decide +kernel
  have result : t.renameFree "y" "z" = renamed := by decide +kernel
  obtain ⟨sameFree, sameAnswer⟩ := blind stale same
  obtain ⟨shape, size, replaced, back⟩ := renames "y" "z" fresh
  rw [result] at shape size replaced back
  have mem : "x" ∈ t.freeVars := by simp [free]
  exact ⟨same, sameFree ▸ free, sameAnswer "x" ▸ (asked "x").mpr mem,
    gathered ▸ List.mem_toFinset.mpr mem, fresh, result, shape, size, by rw [replaced, free]; rfl,
    back⟩

end LambdaWorkbench.Term
