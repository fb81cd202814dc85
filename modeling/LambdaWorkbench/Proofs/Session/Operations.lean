import LambdaWorkbench.Proofs.Redex.Runs
import LambdaWorkbench.Proofs.Term.Indexed
import LambdaWorkbench.Session

/-! # What the operations of a session do

One lemma for each operation says all that it can do when it succeeds: what has to hold before it,
what it returns and what it leaves. On a session with a term the listed redexes are really there, so
neither describing nor reducing them can fail.
-/

namespace LambdaWorkbench

namespace Environment

variable {env : Environment} {t u : Term} {address : Address}

/-- The result of a reduction has its indices worked out. -/
theorem reindex_of_reduceAt (h : env.reduceAt t address = .ok (some u)) : u.reindex = u := by
  obtain ⟨binders, sub, path⟩ := exists_path_of_reduceAt h
  cases kind : env.classifyBelow binders sub with
  | error reason =>
    rw [path.reduceAt_eq, kind] at h
    cases h
  | ok redex =>
    obtain ⟨v, -, eq, indexed, -⟩ := path.reduceAt_of_redex kind
    rw [eq] at h
    cases h
    exact indexed

end Environment

namespace Session

variable {session next : Session} {t : Term} {text name : String} {address : Address}
  {history : History}

/-! ## Loading and defining -/

theorem of_load (h : session.load text = .ok (t, next)) :
    session.read text = .ok t ∧ next = { session with history := some (History.start t) } := by
  unfold load at h
  split at h
  · rename_i other eq
    cases h
    exact ⟨eq, rfl⟩
  · cases h

theorem of_define {old : Option Term} (h : session.define name text = .ok (old, next)) :
    ∃ term, Term.parse text = .ok term ∧
      next = { session with env := session.env.insert name term } := by
  unfold define at h
  split at h
  · rename_i replaced env eq
    cases h
    obtain ⟨term, parsed, rfl⟩ := Environment.insert_of_define eq
    exact ⟨term, parsed, rfl⟩
  · cases h

/-! ## Stepping -/

/-- What needs a loaded term succeeds only if there is one. -/
theorem exists_history_of_bind {α : Type} {f : History → Except SessionError α} {value : α}
    (h : session.loaded >>= f = .ok value) :
    ∃ history, session.history = some history ∧ f history = .ok value := by
  obtain ⟨history, found, rest⟩ := Term.exists_ok_of_bind h
  unfold loaded at found
  split at found
  · rename_i past
    cases found
    exact ⟨history, past, rest⟩
  · cases found

theorem loaded_eq (h : session.history = some history) : session.loaded = .ok history := by
  rw [loaded, h]

theorem redexes_eq (h : session.history = some history) :
    session.redexes = .ok (session.env.redexes history.current) := by
  rw [redexes, loaded_eq h]
  rfl

theorem describe_eq (h : session.history = some history) (address : Address) :
    session.describe address =
      (session.env.classify history.current address).mapError .address := by
  rw [describe, loaded_eq h]
  rfl

theorem step_eq (h : session.history = some history) (address : Address) :
    session.step address =
      ((session.env.reduceAt history.current address).mapError SessionError.address).map
        (Option.map fun t => (t, { session with history := some (history.push t) })) := by
  rw [step, loaded_eq h]
  simp only [bind, Except.bind]
  cases session.env.reduceAt history.current address <;> rfl

theorem exists_history_of_step {result : Option (Term × Session)}
    (h : session.step address = .ok result) : ∃ history, session.history = some history := by
  obtain ⟨history, past, -⟩ := exists_history_of_bind h
  exact ⟨history, past⟩

theorem of_step (h : session.step address = .ok (some (t, next))) :
    ∃ history, session.history = some history ∧
      session.env.reduceAt history.current address = .ok (some t) ∧
      next = { session with history := some (history.push t) } := by
  obtain ⟨history, past⟩ := exists_history_of_step h
  rw [step_eq past] at h
  cases reduced : session.env.reduceAt history.current address with
  | error fault =>
    rw [reduced] at h
    cases h
  | ok found =>
    rw [reduced] at h
    cases found with
    | none => cases h
    | some u =>
      cases h
      exact ⟨history, past, reduced, rfl⟩

theorem of_stepNth {number : Nat} (h : session.stepNth number = .ok (some (t, next))) :
    ∃ address, session.step address = .ok (some (t, next)) := by
  obtain ⟨redexes, -, picked⟩ := Term.exists_ok_of_bind h
  split at picked
  · rename_i address _
    exact ⟨address, picked⟩
  · cases picked

theorem of_stepAuto (h : session.stepAuto = .ok (some (t, next))) :
    ∃ address, session.step address = .ok (some (t, next)) := by
  obtain ⟨redexes, -, picked⟩ := Term.exists_ok_of_bind h
  split at picked
  · rename_i address _
    exact ⟨address, picked⟩
  · cases picked

/-- Stepping by the policy makes the next step of a run. -/
theorem stepAuto_eq (h : session.history = some history) :
    session.stepAuto = .ok ((session.env.advance session.policy history.current).map fun t =>
      (t, { session with history := some (history.push t) })) := by
  rw [stepAuto, redexes_eq h]
  simp only [bind, Except.bind]
  cases picked : session.policy.select (session.env.redexes history.current) with
  | none =>
    simp only [Environment.advance, picked]
    rfl
  | some address =>
    obtain ⟨u, reduced, advanced⟩ := Environment.advance_of_select picked
    rw [advanced]
    dsimp only
    rw [step_eq h, reduced]
    rfl

/-- Once a term is loaded the policy never picks in vain. -/
theorem exists_stepAuto_eq (h : session.history = some history) :
    ∃ result, session.stepAuto = .ok result :=
  ⟨_, stepAuto_eq h⟩

/-- Every subterm can be described. -/
theorem exists_describe_eq {binders : List String} {sub : Term}
    (h : session.history = some history) (path : Term.Path history.current address binders sub) :
    ∃ kind, session.describe address = .ok kind := by
  rw [describe_eq h, path.classify_eq]
  exact ⟨_, rfl⟩

/-- A place that was found inert can be described. -/
theorem exists_describe_of_step (h : session.step address = .ok none) :
    ∃ kind, session.describe address = .ok kind := by
  obtain ⟨history, past⟩ := exists_history_of_step h
  rw [step_eq past] at h
  cases reduced : session.env.reduceAt history.current address with
  | error fault =>
    rw [reduced] at h
    cases h
  | ok found =>
    obtain ⟨binders, sub, path⟩ := Environment.exists_path_of_reduceAt reduced
    exact exists_describe_eq past path

/-! ## Going back -/

theorem of_undo (h : session.undo = .ok (some (t, next))) :
    ∃ history shorter, session.history = some history ∧ history.undo = (some t, shorter) ∧
      next = { session with history := some shorter } := by
  obtain ⟨history, past, rest⟩ := exists_history_of_bind h
  split at rest
  · rename_i taken shorter eq
    cases rest
    exact ⟨history, shorter, past, eq, rfl⟩
  · cases rest

theorem of_rewind {steps : Nat} (h : session.rewind steps = .ok (t, next)) :
    ∃ history, session.history = some history ∧ t = (history.truncate (steps + 1)).current ∧
      next = { session with history := some (history.truncate (steps + 1)) } := by
  obtain ⟨history, past, rest⟩ := exists_history_of_bind h
  cases rest
  exact ⟨history, past, rfl, rfl⟩

end Session

end LambdaWorkbench
