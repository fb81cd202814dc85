import LambdaWorkbench.Address.Basic

/-!
# Policies

A policy picks one of several addresses: of the outermost or the innermost ones, the leftmost or
the rightmost.
-/

namespace LambdaWorkbench

/-- Which addresses a policy considers. -/
inductive Depth where
  /-- Those that no other one is above. -/
  | outermost
  /-- Those that are above no other one. -/
  | innermost
  deriving DecidableEq, Repr

/-- Which of the considered addresses a policy picks. -/
inductive Side where
  | leftmost
  | rightmost
  deriving DecidableEq, Repr

/-- A rule for picking one address among many. -/
structure Policy where
  depth : Depth
  side : Side
  deriving DecidableEq, Repr

structure UnknownPolicy where
  text : String
  deriving DecidableEq, Repr

def UnknownPolicy.message (unknown : UnknownPolicy) : String :=
  "unknown policy `" ++ unknown.text ++ "` (expected lo, li, ro or ri)"

namespace Policy

/-- The leftmost outermost address. -/
def normalOrder : Policy := ⟨.outermost, .leftmost⟩

/-- The leftmost innermost address. -/
def applicativeOrder : Policy := ⟨.innermost, .leftmost⟩

/-- The policies in the order they are offered in. -/
def all : List Policy :=
  [normalOrder, applicativeOrder, ⟨.outermost, .rightmost⟩, ⟨.innermost, .rightmost⟩]

def name : Policy → String
  | ⟨.outermost, .leftmost⟩ => "lo"
  | ⟨.innermost, .leftmost⟩ => "li"
  | ⟨.outermost, .rightmost⟩ => "ro"
  | ⟨.innermost, .rightmost⟩ => "ri"

def ofName (text : String) : Except UnknownPolicy Policy :=
  match all.find? (·.name == text) with
  | some policy => .ok policy
  | none => .error ⟨text⟩

theorem mem_all (policy : Policy) : policy ∈ all := by
  rcases policy with ⟨_ | _, _ | _⟩ <;> decide

theorem ofName_name (policy : Policy) : ofName policy.name = .ok policy := by
  rcases policy with ⟨_ | _, _ | _⟩ <;> rfl

/-- Whether a policy considers one of the candidates. -/
def considers (policy : Policy) (candidates : List Address) (address : Address) : Bool :=
  match policy.depth with
  | .outermost => !candidates.any (·.isAbove address)
  | .innermost => !candidates.any (address.isAbove ·)

/-- The first address of a non-empty list in the order of addresses. -/
def leftmost? : List Address → Option Address
  | [] => none
  | first :: rest => some (rest.foldl (fun best next => if next < best then next else best) first)

/-- The last address of a non-empty list in the order of addresses. -/
def rightmost? : List Address → Option Address
  | [] => none
  | first :: rest => some (rest.foldl (fun best next => if best < next then next else best) first)

/-- The candidate that a policy picks. -/
def select (policy : Policy) (candidates : List Address) : Option Address :=
  let considered := candidates.filter (policy.considers candidates)
  match policy.side with
  | .leftmost => leftmost? considered
  | .rightmost => rightmost? considered

end Policy

end LambdaWorkbench
