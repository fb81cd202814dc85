import Mathlib.Data.Finset.Card
import Mathlib.Order.Bounds.Basic
import LambdaWorkbench.Proofs.Term.Parameters

/-! # Searches without a bound

The search for a fresh name allows for as many primes as there are names in use, and substitution
goes down by the size of the body. Here both go on for as long as they must: their rules say what
they do next, and not how often. They do end, with what the bounded ones come to. Names with
different numbers of primes differ, so a finite set has only so many of them, and a renamed body is
as large as it was.
-/

namespace LambdaWorkbench

variable {name result : String} {used : List String} {taken : String → Prop}
  {count passes : Nat}

/-! ## Counting primes -/

theorem length_primed (name : String) (count : Nat) :
    (primed name count).length = name.length + count := by
  induction count with
  | zero => rfl
  | succ count ih =>
    rw [primed, String.length_append, ih]
    rfl

theorem primed_injective (name : String) : Function.Injective (primed name) := by
  intro count count' same
  have lengths := congrArg String.length same
  rw [length_primed, length_primed] at lengths
  exact Nat.add_left_cancel lengths

/-- The spellings with fewer primes are so many different members of the set. -/
theorem le_card_of_forall_primed_mem (before : ∀ fewer < count, primed name fewer ∈ used) :
    count ≤ used.toFinset.card := by
  have members : (Finset.range count).image (primed name) ⊆ used.toFinset := by
    intro other mem
    obtain ⟨fewer, less, rfl⟩ := Finset.mem_image.mp mem
    exact List.mem_toFinset.mpr (before fewer (Finset.mem_range.mp less))
  calc
    count = (Finset.range count).card := (Finset.card_range count).symm
    _ = ((Finset.range count).image (primed name)).card :=
      (Finset.card_image_of_injective _ (primed_injective name)).symm
    _ ≤ used.toFinset.card := Finset.card_le_card members

theorem isLeast_untaken_iff :
    IsLeast {count | ¬ taken (primed name count)} count ↔
      ¬ taken (primed name count) ∧ ∀ fewer < count, taken (primed name fewer) := by
  refine and_congr_right fun _ => ⟨fun least fewer less => ?_, fun before other free => ?_⟩
  · by_contra free
    exact Nat.not_lt_of_le (least free) less
  · exact Nat.le_of_not_lt fun less => free (before other less)

/-- A taken name needs one prime more than the name after it. -/
theorem isLeast_untaken_prime_iff (isTaken : taken name) :
    IsLeast {count | ¬ taken (primed (name ++ "'") count)} count ↔
      IsLeast {count | ¬ taken (primed name count)} (count + 1) := by
  have unprimed : taken (primed name 0) := isTaken
  rw [isLeast_untaken_iff, isLeast_untaken_iff, primed_prime, Nat.forall_lt_succ_left,
    and_iff_right unprimed]
  simp only [primed_prime]

/-! ## The fewest primes -/

theorem exists_isLeast_freshName (name : String) (used : List String) :
    ∃ count, IsLeast {count | primed name count ∉ used} count ∧ count ≤ used.toFinset.card ∧
      freshName name used = primed name count := by
  obtain ⟨count, -, found, before⟩ := primeWhileUsed_eq_primed used used.length name
  have free : primed name count ∉ used := found ▸ freshName_not_mem name used
  exact ⟨count, isLeast_untaken_iff.mpr ⟨free, before⟩, le_card_of_forall_primed_mem before, found⟩

/-- A longer name that is taken does not matter. -/
example : freshName "y" ["y''", "y"] = "y'" := by decide

theorem primed_mem_range_iff {other : Nat} :
    primed name other ∈ (List.range count).map (primed name) ↔ other < count := by
  rw [List.mem_map_of_injective (primed_injective name), List.mem_range]

/-- No smaller number of primes would do for all sets of so many names. -/
theorem exists_freshName_eq_primed_card (name : String) (count : Nat) :
    ∃ used : List String, used.toFinset.card = count ∧ freshName name used = primed name count := by
  refine ⟨(List.range count).map (primed name), ?_, ?_⟩
  · rw [List.toFinset_card_of_nodup (List.nodup_range.map (primed_injective name)),
      List.length_map, List.length_range]
  · obtain ⟨count', least, -, found⟩ :=
      exists_isLeast_freshName name ((List.range count).map (primed name))
    obtain ⟨free, before⟩ := isLeast_untaken_iff.mp least
    have le : count ≤ count' := Nat.le_of_not_lt fun less => free (primed_mem_range_iff.mpr less)
    have ge : count' ≤ count := Nat.le_of_not_lt fun less =>
      Nat.lt_irrefl count (primed_mem_range_iff.mp (before count less))
    rw [found, Nat.le_antisymm le ge]

/-! ## The search -/

/-- The search for a name that is not taken, with nothing to bound it: from `name` it ends with
`result` after so many primes. -/
inductive FreshSearch (taken : String → Prop) : String → Nat → String → Prop where
  | found {name : String} (free : ¬ taken name) : FreshSearch taken name 0 name
  | prime {name result : String} {count : Nat} (isTaken : taken name)
      (rest : FreshSearch taken (name ++ "'") count result) :
      FreshSearch taken name (count + 1) result

/-- The search ends where some number of primes leads out of the taken names, and only there. -/
theorem freshSearch_iff :
    FreshSearch taken name count result ↔
      IsLeast {count | ¬ taken (primed name count)} count ∧ result = primed name count := by
  constructor
  · intro search
    induction search with
    | found free => exact ⟨⟨free, fun _ _ => Nat.zero_le _⟩, rfl⟩
    | prime isTaken _ ih =>
      obtain ⟨least, rfl⟩ := ih
      exact ⟨(isLeast_untaken_prime_iff isTaken).mp least, primed_prime _ _⟩
  · rintro ⟨least, rfl⟩
    induction count generalizing name with
    | zero => exact .found least.1
    | succ count ih =>
      have isTaken : taken name := (isLeast_untaken_iff.mp least).2 0 (Nat.zero_lt_succ count)
      rw [← primed_prime]
      exact .prime isTaken (ih ((isLeast_untaken_prime_iff isTaken).mpr least))

theorem freshSearch_iff_of_isLeast (least : IsLeast {count | ¬ taken (primed name count)} count) :
    FreshSearch taken name passes result ↔ passes = count ∧ result = primed name count := by
  rw [freshSearch_iff]
  constructor
  · rintro ⟨least', rfl⟩
    obtain rfl := least'.unique least
    exact ⟨rfl, rfl⟩
  · rintro ⟨rfl, rfl⟩
    exact ⟨least, rfl⟩

/-- Out of finitely many names the search always finds its way. -/
theorem exists_freshSearch_iff :
    (∃ passes, FreshSearch (· ∈ used) name passes result) ↔ result = freshName name used := by
  obtain ⟨count, least, -, found⟩ := exists_isLeast_freshName name used
  simp only [freshSearch_iff_of_isLeast least, exists_eq_left, found]

/-! ## Substitution -/

namespace Term

/-- Substitution with nothing to bound it: the search for a fresh name goes on for as long as it
must, and so does the descent, whatever body a renaming leaves. -/
inductive Substitutes (name : String) (arg : Term) (argFree : List String) : Term → Term → Prop where
  | occurrence {index : Nat} : Substitutes name arg argFree (var name index) arg
  | other {occurring : String} {index : Nat} (differ : occurring ≠ name) :
      Substitutes name arg argFree (var occurring index) (var occurring index)
  | app {func func' right right' : Term} (onFunc : Substitutes name arg argFree func func')
      (onRight : Substitutes name arg argFree right right') :
      Substitutes name arg argFree (app func right) (app func' right')
  | shadowed {body : Term} : Substitutes name arg argFree (lam name body) (lam name body)
  | renamed {param fresh : String} {count : Nat} {body body' : Term} (differ : param ≠ name)
      (clash : param ∈ argFree ∧ body.hasFree name)
      (search : FreshSearch (· ∈ body.names ++ argFree ++ [name]) param count fresh)
      (below : Substitutes name arg argFree (body.renameFree param fresh) body') :
      Substitutes name arg argFree (lam param body) (lam fresh body')
  | kept {param : String} {body body' : Term} (differ : param ≠ name)
      (noClash : ¬ (param ∈ argFree ∧ body.hasFree name))
      (below : Substitutes name arg argFree body body') :
      Substitutes name arg argFree (lam param body) (lam param body')

variable {t arg : Term} {argFree : List String} {result : Term}

/-- The induction is on the size of the term, which a renaming keeps. -/
theorem substitutes_substIn (name : String) (arg : Term) (argFree : List String) (t : Term) :
    Substitutes name arg argFree t (substIn name arg argFree t) := by
  fun_induction substIn name arg argFree t with
  | case1 index => exact .occurrence
  | case2 occurring index differ => exact .other differ
  | case3 func right ihf iha => exact .app ihf iha
  | case4 body => exact .shadowed
  | case5 param body differ clash fresh ih =>
    obtain ⟨count, search⟩ := exists_freshSearch_iff.mpr (Eq.refl fresh)
    exact .renamed differ clash search ih
  | case6 param body differ noClash ih => exact .kept differ noClash ih

theorem Substitutes.eq_substIn {name : String} (h : Substitutes name arg argFree t result) :
    result = substIn name arg argFree t := by
  induction h with
  | occurrence => rw [substIn, if_pos rfl]
  | other differ => rw [substIn, if_neg differ]
  | app _ _ ihf iha => rw [substIn, ihf, iha]
  | shadowed => rw [substIn, if_pos rfl]
  | renamed differ clash search _ ih =>
    obtain rfl := exists_freshSearch_iff.mp ⟨_, search⟩
    rw [substIn, if_neg differ, if_pos clash, ih]
  | kept differ noClash _ ih => rw [substIn, if_neg differ, if_neg noClash, ih]

/-- **Fresh names are found, and substitution ends.** The search for a fresh name, with nothing to
bound it, ends after the fewest primes that lead out of the names in use. These are no more than
there are different names, and for each number of names there are some that take so many primes.
Substitution, which goes on in a renamed body, ends on every term as well. What the two end with is
what the bounded ones come to. -/
theorem fresh_names_and_substitution_end :
    (∀ (name : String) (used : List String),
      ∃ count, IsLeast {count | primed name count ∉ used} count ∧ count ≤ used.toFinset.card ∧
        freshName name used = primed name count ∧
        ∀ passes result, FreshSearch (· ∈ used) name passes result ↔
          passes = count ∧ result = freshName name used) ∧
    (∀ (name : String) (count : Nat), ∃ used : List String,
      used.toFinset.card = count ∧ freshName name used = primed name count) ∧
    ∀ (name : String) (arg : Term) (argFree : List String) (body result : Term),
      Substitutes name arg argFree body result ↔ result = substIn name arg argFree body := by
  refine ⟨fun name used => ?_, exists_freshName_eq_primed_card, ?_⟩
  · obtain ⟨count, least, le, found⟩ := exists_isLeast_freshName name used
    exact ⟨count, least, le, found,
      fun passes result => found ▸ freshSearch_iff_of_isLeast least⟩
  · intro name arg argFree body result
    constructor
    · exact Substitutes.eq_substIn
    · rintro rfl
      exact substitutes_substIn name arg argFree body

end Term

end LambdaWorkbench
