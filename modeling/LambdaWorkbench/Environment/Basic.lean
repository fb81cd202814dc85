import LambdaWorkbench.Text.Unsigned
import LambdaWorkbench.Term.OfSexpr

/-!
# Environments

The definitions that free names are looked up in, in the order in which their names first came in,
and the limit up to which numerals are expanded. Definitions are kept as they were parsed: the
free names in them are looked up only when reduction reaches them, so the order does not matter
for their meaning.
-/

namespace LambdaWorkbench

/-- Sets the term of `name` in a list of definitions: in its place when it has one, at the end
otherwise. -/
def putEntry (name : String) (term : Term) : List (String × Term) → List (String × Term)
  | [] => [(name, term)]
  | entry :: rest =>
    if entry.1 = name then (name, term) :: rest else entry :: putEntry name term rest

theorem mem_keys_putEntry {name key : String} {term : Term} {entries : List (String × Term)} :
    key ∈ (putEntry name term entries).map Prod.fst ↔
      key = name ∨ key ∈ entries.map Prod.fst := by
  induction entries with
  | nil => simp [putEntry]
  | cons entry rest ih =>
    unfold putEntry
    split
    · rename_i same
      simp [same]
    · simp only [List.map_cons, List.mem_cons, ih]
      exact or_left_comm

theorem nodup_putEntry {name : String} {term : Term} {entries : List (String × Term)}
    (h : (entries.map Prod.fst).Nodup) : ((putEntry name term entries).map Prod.fst).Nodup := by
  induction entries with
  | nil => simp [putEntry]
  | cons entry rest ih =>
    rw [List.map_cons, List.nodup_cons] at h
    unfold putEntry
    split
    · rename_i same
      rw [List.map_cons, List.nodup_cons, ← same]
      exact h
    · rename_i other
      rw [List.map_cons, List.nodup_cons, mem_keys_putEntry]
      exact ⟨fun found => found.elim other h.1, ih h.2⟩

theorem lookup_cons_eq_ite (first key : String) (term : Term) (rest : List (String × Term)) :
    ((first, term) :: rest).lookup key = if key = first then some term else rest.lookup key := by
  by_cases h : key = first
  · rw [if_pos h, h, List.lookup_cons_self]
  · rw [if_neg h, List.lookup_cons, beq_eq_false_iff_ne.mpr h]

theorem lookup_putEntry (name key : String) (term : Term) (entries : List (String × Term)) :
    (putEntry name term entries).lookup key =
      if key = name then some term else entries.lookup key := by
  induction entries with
  | nil => rw [putEntry, lookup_cons_eq_ite]
  | cons entry rest ih =>
    rcases entry with ⟨first, old⟩
    unfold putEntry
    split
    · rename_i same
      have same : first = name := same
      rw [lookup_cons_eq_ite, lookup_cons_eq_ite, same]
      split <;> rfl
    · rename_i other
      have other : first ≠ name := other
      rw [lookup_cons_eq_ite, lookup_cons_eq_ite, ih]
      by_cases h : key = first
      · simp [h, other]
      · simp [h]

theorem lookup_filter_ne (name key : String) (entries : List (String × Term)) :
    (entries.filter (·.1 ≠ name)).lookup key =
      if key = name then none else entries.lookup key := by
  induction entries with
  | nil => simp
  | cons entry rest ih =>
    rcases entry with ⟨first, old⟩
    by_cases same : first = name
    · rw [List.filter_cons_of_neg (by simpa using same), ih, lookup_cons_eq_ite, same]
      split <;> rfl
    · rw [List.filter_cons_of_pos (by simpa using same), lookup_cons_eq_ite, lookup_cons_eq_ite,
        ih]
      by_cases h : key = first
      · simp [h, same]
      · simp [h]

/-- Definitions by name, each name once, and the largest numeral to expand, if there is a limit. -/
structure Environment where
  entries : List (String × Term)
  numeralLimit : Option Nat
  nodup_keys : (entries.map Prod.fst).Nodup
  deriving DecidableEq

namespace Environment

def empty : Environment := ⟨[], none, List.nodup_nil⟩

instance : Inhabited Environment := ⟨empty⟩

def names (env : Environment) : List String :=
  env.entries.map Prod.fst

def size (env : Environment) : Nat :=
  env.entries.length

def isEmpty (env : Environment) : Bool :=
  env.entries.isEmpty

def get? (env : Environment) (name : String) : Option Term :=
  env.entries.lookup name

def contains (env : Environment) (name : String) : Bool :=
  (env.get? name).isSome

/-- The names that start with `start`, in their order. -/
def namesFrom (env : Environment) (start : String) : List String :=
  env.names.filter fun name => start.toList.isPrefixOf name.toList

/-- Adds a definition, or replaces it in its place. -/
def insert (env : Environment) (name : String) (term : Term) : Environment :=
  { env with
    entries := putEntry name term env.entries
    nodup_keys := nodup_putEntry env.nodup_keys }

@[simp] theorem get?_insert (env : Environment) (name key : String) (term : Term) :
    (env.insert name term).get? key = if key = name then some term else env.get? key :=
  lookup_putEntry name key term env.entries

@[simp] theorem numeralLimit_insert (env : Environment) (name : String) (term : Term) :
    (env.insert name term).numeralLimit = env.numeralLimit := rfl

/-- Removes a definition; the others keep their order. -/
def erase (env : Environment) (name : String) : Environment :=
  { env with
    entries := env.entries.filter (·.1 ≠ name)
    nodup_keys := env.nodup_keys.sublist (List.filter_sublist.map Prod.fst) }

@[simp] theorem get?_erase (env : Environment) (name key : String) :
    (env.erase name).get? key = if key = name then none else env.get? key :=
  lookup_filter_ne name key env.entries

/-- Adds a definition and returns the one it replaces. -/
def getThenInsert? (env : Environment) (name : String) (term : Term) :
    Option Term × Environment :=
  (env.get? name, env.insert name term)

/-- Removes a definition and returns it. -/
def getThenErase? (env : Environment) (name : String) : Option Term × Environment :=
  (env.get? name, env.erase name)

/-- Parses `text` and makes it the definition of `name`. Returns the definition it replaces. -/
def define (env : Environment) (name text : String) :
    Except ParseError (Option Term × Environment) :=
  match Term.parse text with
  | .ok term => .ok (env.getThenInsert? name term)
  | .error cause => .error (.inDefinition name cause)

/-- Adds every definition of `other` in its order, in place of those of the same name. The limit
stays. -/
def extend (env other : Environment) : Environment :=
  other.entries.foldl (fun env entry => env.insert entry.1 entry.2) env

/-- The same definitions under another limit. -/
def withLimit (env : Environment) (limit : Option Nat) : Environment :=
  { env with numeralLimit := limit }

/-- Whether the numeral of `n` may be expanded: it has to fit in 64 bits and to be within the
limit. -/
def expands (env : Environment) (n : Nat) : Bool :=
  n ≤ Text.maxWord && env.numeralLimit.all (n ≤ ·)

/-- Whether two environments define the same names as the same terms, in whatever order, and have
the same limit. -/
def agrees (env other : Environment) : Bool :=
  env.size == other.size && env.numeralLimit == other.numeralLimit &&
    env.entries.all fun entry => other.get? entry.1 == some entry.2

/-- The definitions with the given texts, added one after the other up to the first that cannot be
parsed. -/
def ofDefinitions (definitions : List (String × String)) : Except ParseError Environment :=
  definitions.foldlM (fun env entry => (env.define entry.1 entry.2).map (·.2)) empty

end Environment

end LambdaWorkbench
