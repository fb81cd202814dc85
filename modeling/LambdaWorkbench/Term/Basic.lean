/-!
# Lambda terms

Terms keep the names they were written with. Reduction goes by names; the index in a variable
records the distance to its binder and is worked out anew after every step.
-/

namespace LambdaWorkbench

/-- An untyped lambda term with named variables. The index of a variable counts the lambdas from
the variable to its binder, the binder included, and is 0 for a free variable. -/
inductive Term where
  | var (name : String) (index : Nat)
  | lam (param : String) (body : Term)
  | app (func arg : Term)
  deriving DecidableEq, Inhabited, Repr

namespace Term

def free (name : String) : Term :=
  var name 0

/-- Nested lambdas, the first parameter outermost. -/
def lams (params : List String) (body : Term) : Term :=
  params.foldr lam body

def size : Term → Nat
  | var _ _ => 1
  | lam _ body => 1 + body.size
  | app func arg => 1 + func.size + arg.size

/-- The names of the free occurrences of variables, in the order of the text and with
repetitions. Binding is by name, whatever the indices say. -/
def freeVars : Term → List String
  | var name _ => [name]
  | lam param body => body.freeVars.filter (· ≠ param)
  | app func arg => func.freeVars ++ arg.freeVars

def hasFree (name : String) : Term → Bool
  | var occurring _ => occurring == name
  | lam param body => param != name && body.hasFree name
  | app func arg => func.hasFree name || arg.hasFree name

/-- Every name in a term, those of parameters included, in the order of the text and with
repetitions. -/
def names : Term → List String
  | var name _ => [name]
  | lam param body => param :: body.names
  | app func arg => func.names ++ arg.names

/-- Renames the free occurrences of `old` to `new`. The meaning stays the same when `new` occurs
nowhere in the term. -/
def renameFree (old new : String) : Term → Term
  | var name index => if name = old then var new index else var name index
  | lam param body => if param = old then lam param body else lam param (body.renameFree old new)
  | app func arg => app (func.renameFree old new) (arg.renameFree old new)

/-- `f` applied `n` times to `x`, inside the lambdas of a Church numeral. -/
def iterated : Nat → Term
  | 0 => var "x" 1
  | n + 1 => app (var "f" 2) (iterated n)

def church (n : Nat) : Term :=
  lam "f" (lam "x" (iterated n))

@[simp] theorem size_renameFree (old new : String) (t : Term) :
    (t.renameFree old new).size = t.size := by
  induction t with
  | var name index => simp only [renameFree]; split <;> rfl
  | lam param body ih => simp only [renameFree]; split <;> simp [size, ih]
  | app func arg ihf iha => simp [renameFree, size, ihf, iha]

theorem hasFree_iff_mem_freeVars {name : String} {t : Term} :
    t.hasFree name = true ↔ name ∈ t.freeVars := by
  induction t with
  | var occurring index =>
    rw [hasFree, freeVars, beq_iff_eq, List.mem_singleton]
    exact eq_comm
  | lam param body ih =>
    rw [hasFree, freeVars, Bool.and_eq_true, bne_iff_ne, ih, List.mem_filter, decide_eq_true_eq]
    exact ⟨fun h => ⟨h.2, h.1.symm⟩, fun h => ⟨h.2.symm, h.1⟩⟩
  | app func arg ihf iha => simp [hasFree, freeVars, ihf, iha]

theorem mem_names_of_mem_freeVars {name : String} {t : Term} (h : name ∈ t.freeVars) :
    name ∈ t.names := by
  induction t with
  | var occurring index => exact h
  | lam param body ih =>
    have inBody : name ∈ body.freeVars := (List.mem_filter.mp h).1
    exact List.mem_cons_of_mem _ (ih inBody)
  | app func arg ihf iha =>
    refine List.mem_append.mpr ?_
    rcases List.mem_append.mp h with inFunc | inArg
    · exact Or.inl (ihf inFunc)
    · exact Or.inr (iha inArg)

end Term

end LambdaWorkbench
