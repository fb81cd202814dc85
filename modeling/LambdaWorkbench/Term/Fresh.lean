import LambdaWorkbench.Term.Basic

/-!
# Fresh names

A name that is taken gets primes until it is not. One prime for each taken name is always enough,
so the search is bounded by their number.
-/

namespace LambdaWorkbench

/-- Adds at most `fuel` primes to `name`, as long as it is one of `used`. -/
def primeWhileUsed (used : List String) : Nat → String → String
  | 0, name => name
  | fuel + 1, name => if name ∈ used then primeWhileUsed used fuel (name ++ "'") else name

/-- `name` with the fewest primes that take it out of `used`. -/
def freshName (name : String) (used : List String) : String :=
  primeWhileUsed used used.length name

/-- Among the names that are at least as long as a used one, that one is lost as soon as a longer
name is asked for. -/
theorem countP_longer_lt {used : List String} {name : String} (h : name ∈ used) :
    used.countP (name.length + 1 ≤ ·.length) < used.countP (name.length ≤ ·.length) := by
  induction used with
  | nil => cases h
  | cons first rest ih =>
    have rest_le : rest.countP (name.length + 1 ≤ ·.length) ≤ rest.countP (name.length ≤ ·.length) := by
      refine List.countP_mono_left fun other _ long => ?_
      simp only [decide_eq_true_eq] at long ⊢
      omega
    simp only [List.countP_cons, decide_eq_true_eq]
    rcases List.mem_cons.mp h with rfl | inRest
    · rw [if_neg (by omega), if_pos (Nat.le_refl _)]
      omega
    · have := ih inRest
      split <;> split <;> omega

theorem primeWhileUsed_not_mem {used : List String} {fuel : Nat} {name : String}
    (enough : used.countP (name.length ≤ ·.length) ≤ fuel) :
    primeWhileUsed used fuel name ∉ used := by
  induction fuel generalizing name with
  | zero =>
    intro taken
    have := List.countP_eq_zero.mp (Nat.le_zero.mp enough) name taken
    simp at this
  | succ fuel ih =>
    unfold primeWhileUsed
    split
    · rename_i taken
      refine ih ?_
      have := countP_longer_lt taken
      rw [String.length_append]
      exact Nat.le_of_lt_succ (Nat.lt_of_lt_of_le this enough)
    · assumption

/-- The primes that the search allows for are always enough. -/
theorem freshName_not_mem (name : String) (used : List String) : freshName name used ∉ used :=
  primeWhileUsed_not_mem List.countP_le_length

end LambdaWorkbench
