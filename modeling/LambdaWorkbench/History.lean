import LambdaWorkbench.Term.Basic

/-!
# Histories

The terms that a reduction went through. The first one is always there: it can be gone back to but
not undone.
-/

namespace LambdaWorkbench

/-- The first term of a reduction, and the terms after it, newest first. -/
structure History where
  initial : Term
  later : List Term
  deriving DecidableEq, Inhabited, Repr

namespace History

/-- The history of a term that has just come in. -/
def start (t : Term) : History := ⟨t, []⟩

/-- All terms, oldest first. -/
def toList (history : History) : List Term :=
  history.initial :: history.later.reverse

def length (history : History) : Nat :=
  history.later.length + 1

def steps (history : History) : Nat :=
  history.later.length

def current (history : History) : Term :=
  history.later.head?.getD history.initial

def get? (history : History) (i : Nat) : Option Term :=
  history.toList[i]?

def push (history : History) (t : Term) : History :=
  { history with later := t :: history.later }

/-- Takes back the newest term, unless it is the first one. -/
def undo (history : History) : Option Term × History :=
  match history.later with
  | [] => (none, history)
  | newest :: older => (some newest, { history with later := older })

/-- Keeps the oldest `count` terms, and the first one in any case. -/
def truncate (history : History) (count : Nat) : History :=
  { history with later := history.later.drop (history.later.length - (count - 1)) }

@[simp] theorem length_toList (history : History) : history.toList.length = history.length := by
  simp [toList, length]

@[simp] theorem toList_start (t : Term) : (start t).toList = [t] := rfl

@[simp] theorem toList_push (history : History) (t : Term) :
    (history.push t).toList = history.toList ++ [t] := by
  simp [push, toList]

@[simp] theorem current_push (history : History) (t : Term) : (history.push t).current = t := rfl

theorem toList_truncate (history : History) (count : Nat) :
    (history.truncate count).toList = history.toList.take (max count 1) := by
  rcases count with _ | count
  · simp [truncate, toList]
  · simp [truncate, toList, List.take_reverse]

end History

end LambdaWorkbench
