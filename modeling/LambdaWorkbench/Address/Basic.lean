/-!
# Addresses

An address leads from the root of a term to one of its subterms. Addresses are ordered like the
nodes of a term in the order of the text: a node comes before those inside it, and the function of
an application before the argument. On lists of steps this is the lexicographic order.
-/

namespace LambdaWorkbench

/-- One move from a node to a child. -/
inductive Step where
  | func
  | body
  | arg
  deriving DecidableEq, Inhabited, Repr

def Step.rank : Step → Nat
  | func => 0
  | body => 1
  | arg => 2

instance : LT Step := ⟨fun a b => a.rank < b.rank⟩

instance (a b : Step) : Decidable (a < b) :=
  inferInstanceAs (Decidable (a.rank < b.rank))

/-- The steps from the root of a term to a subterm. -/
abbrev Address := List Step

namespace Address

def root : Address := []

def child (address : Address) (step : Step) : Address :=
  address ++ [step]

/-- The last step of an address, and the address without it. -/
def pop (address : Address) : Option Step × Address :=
  (address.getLast?, address.dropLast)

/-- Whether the node at the first address holds the node at the second one, and is not it. -/
def isAbove : Address → Address → Bool
  | [], lower => !lower.isEmpty
  | _ :: _, [] => false
  | step :: upper, step' :: lower => step == step' && isAbove upper lower

def compare (a b : Address) : Ordering :=
  if a < b then .lt else if b < a then .gt else .eq

def sort (addresses : List Address) : List Address :=
  addresses.mergeSort fun a b => !decide (b < a)

/-- One address is above another when it is a proper initial part of it. -/
theorem isAbove_iff {a b : Address} : a.isAbove b = true ↔ a <+: b ∧ a ≠ b := by
  induction a generalizing b with
  | nil => cases b <;> simp [isAbove]
  | cons step upper ih =>
    cases b with
    | nil => simp [isAbove]
    | cons step' lower =>
      simp only [isAbove, Bool.and_eq_true, beq_iff_eq, ih, List.cons_prefix_cons, ne_eq,
        List.cons.injEq, not_and]
      constructor
      · rintro ⟨same, start, other⟩
        exact ⟨⟨same, start⟩, fun _ => other⟩
      · rintro ⟨⟨same, start⟩, other⟩
        exact ⟨same, start, other same⟩

end Address

end LambdaWorkbench
