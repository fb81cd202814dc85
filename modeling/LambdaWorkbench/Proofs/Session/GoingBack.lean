import LambdaWorkbench.Proofs.Session.Provenance

/-! # Going back

To a session its history is a stack: steps push terms on it, undos take them off, and nothing else
that moves along a history touches it. So as many undos as there were steps give back the session
that the steps started from, and going back to a step is a loop of undos. The terms up to the lowest
point that was gone back to stay as they are.
-/

namespace LambdaWorkbench

namespace History

variable {history shorter : History} {t : Term} {steps : Nat}

theorem undo_push (history : History) (t : Term) : (history.push t).undo = (some t, history) :=
  rfl

theorem length_toList_eq (history : History) : history.toList.length = history.steps + 1 :=
  history.length_toList

theorem exists_undo_eq (more : 0 < history.steps) :
    ∃ t shorter, history.undo = (some t, shorter) ∧ shorter.steps + 1 = history.steps := by
  cases history with
  | mk initial later =>
    cases later with
    | nil => exact absurd more (Nat.lt_irrefl 0)
    | cons newest older => exact ⟨newest, ⟨initial, older⟩, rfl, rfl⟩

/-- Nothing is cut off a history that is short enough. -/
theorem truncate_eq_self (few : history.steps ≤ steps) :
    history.truncate (steps + 1) = history := by
  have none : history.later.length - steps = 0 := Nat.sub_eq_zero_of_le few
  rw [truncate, Nat.add_sub_cancel, none, List.drop_zero]

/-- Of a longer history the newest term is cut off in any case. -/
theorem truncate_of_undo (taken : history.undo = (some t, shorter)) (more : steps < history.steps) :
    history.truncate (steps + 1) = shorter.truncate (steps + 1) := by
  cases history with
  | mk initial later =>
    cases later with
    | nil => cases taken
    | cons newest older =>
      cases taken
      have few : steps ≤ older.length := Nat.le_of_lt_succ more
      simp only [truncate, Nat.add_sub_cancel, List.length_cons, Nat.succ_sub few,
        List.drop_succ_cons]

/-- All that can happen to a history when one moves along it: nothing, one more term, or the loss of
its newest terms. -/
inductive Move (history : History) : History → Prop
  | idle : Move history history
  | forward (t : Term) : Move history (history.push t)
  | back {shorter : History} : shorter.toList <+: history.toList → Move history shorter

/-- A term that is there before and after a move is the same. -/
theorem Move.get?_eq {left : History} (move : history.Move left) {i : Nat}
    (before : i ≤ history.steps) (after : i ≤ left.steps) : left.get? i = history.get? i := by
  cases move with
  | idle => rfl
  | forward t =>
    have within : i < history.toList.length := by
      rw [length_toList_eq]
      exact Nat.lt_succ_of_le before
    rw [get?, get?, toList_push, List.getElem?_append_left within]
  | back oldest =>
    obtain ⟨rest, whole⟩ := oldest
    have within : i < left.toList.length := by
      rw [length_toList_eq]
      exact Nat.lt_succ_of_le after
    rw [get?, get?, ← whole, List.getElem?_append_left within]

end History

/-- Whether a request only moves along the history. -/
def Request.moves : Request → Bool
  | .step _ | .stepNth _ | .stepAuto | .undo | .rewind _ => true
  | _ => false

def Request.goesBack : Request → Bool
  | .undo | .rewind _ => true
  | _ => false

namespace Session

/-- The number of steps on record. -/
def recorded (session : Session) : Nat :=
  session.history.elim 0 History.steps

/-- One successful step, chosen in any of the three ways, to the term `t`. -/
inductive StepsTo (session : Session) (t : Term) (next : Session) : Prop
  | byAddress (address : Address) :
      session.step address = .ok (some (t, next)) → StepsTo session t next
  | byNumber (number : Nat) :
      session.stepNth number = .ok (some (t, next)) → StepsTo session t next
  | byPolicy : session.stepAuto = .ok (some (t, next)) → StepsTo session t next

/-- Successful steps, one after the other, and the terms they led to, newest first. -/
inductive Trip (start : Session) : List Term → Session → Prop
  | stay : Trip start [] start
  | step {terms : List Term} {t : Term} {session next : Session} :
      Trip start terms session → StepsTo session t next → Trip start (t :: terms) next

/-- Undoes as often as given. Returns the terms that were taken back, in the order in which they
came. -/
def undoTimes (session : Session) : Nat → Except SessionError (List Term × Session)
  | 0 => return ([], session)
  | count + 1 => do
    match ← session.undo with
    | none => return ([], session)
    | some (t, next) =>
      let (terms, reached) ← next.undoTimes count
      return (t :: terms, reached)

/-- Undoing as long as more than `steps` steps are on record leads from one session to another. -/
inductive UndoneTo (steps : Nat) : Session → Session → Prop
  | stop {session : Session} : session.recorded ≤ steps → UndoneTo steps session session
  | undo {session next reached : Session} {t : Term} : steps < session.recorded →
      session.undo = .ok (some (t, next)) → UndoneTo steps next reached →
      UndoneTo steps session reached

/-- The fewest steps on record at any moment while requests are performed. -/
def lowest (session : Session) : List Request → Nat
  | [] => session.recorded
  | request :: rest => min session.recorded ((session.perform request).lowest rest)

variable {session next : Session} {history : History} {request : Request} {t : Term} {steps : Nat}

theorem recorded_eq (loaded : session.history = some history) :
    session.recorded = history.steps := by
  rw [recorded, loaded]
  rfl

theorem with_history_eq (loaded : session.history = some history) :
    { session with history := some history } = session := by
  rw [← loaded]

/-! ## Undoing steps -/

theorem undo_eq (loaded : session.history = some history) :
    session.undo = .ok (history.undo.1.map fun t =>
      (t, { session with history := some history.undo.2 })) := by
  rw [undo, loaded_eq loaded]
  cases history with
  | mk initial later => cases later <;> rfl

theorem StepsTo.exists_step (h : StepsTo session t next) :
    ∃ address, session.step address = .ok (some (t, next)) := by
  cases h with
  | byAddress address eq => exact ⟨address, eq⟩
  | byNumber number eq => exact of_stepNth eq
  | byPolicy eq => exact of_stepAuto eq

/-- An undo takes back the term that a step led to, and leaves what there was before the step. -/
theorem StepsTo.undo_eq (h : StepsTo session t next) : next.undo = .ok (some (t, session)) := by
  obtain ⟨address, step⟩ := h.exists_step
  obtain ⟨history, past, -, rfl⟩ := of_step step
  rw [Session.undo_eq rfl, History.undo_push]
  dsimp only [Option.map]
  rw [with_history_eq past]

theorem Trip.undoTimes_eq {terms : List Term} (trip : Trip session terms next) :
    next.undoTimes terms.length = .ok (terms, session) := by
  induction trip with
  | stay => rfl
  | step trip last ih =>
    rw [List.length_cons, undoTimes, last.undo_eq]
    simp only [bind, Except.bind, ih]
    rfl

/-! ## Going back to a step -/

theorem rewind_eq (loaded : session.history = some history) (steps : Nat) :
    session.rewind steps = .ok ((history.truncate (steps + 1)).current,
      { session with history := some (history.truncate (steps + 1)) }) := by
  rw [rewind, loaded_eq loaded]
  rfl

theorem rewind_eq_self (loaded : session.history = some history) (few : history.steps ≤ steps) :
    session.rewind steps = .ok (history.current, session) := by
  rw [rewind_eq loaded, History.truncate_eq_self few, with_history_eq loaded]

theorem undoneTo_truncate (loaded : session.history = some history) (steps : Nat) :
    UndoneTo steps session { session with history := some (history.truncate (steps + 1)) } := by
  induction count : history.steps generalizing session history with
  | zero =>
    have few : history.steps ≤ steps := count ▸ Nat.zero_le steps
    rw [History.truncate_eq_self few, with_history_eq loaded]
    exact .stop (recorded_eq loaded ▸ few)
  | succ n ih =>
    by_cases few : history.steps ≤ steps
    · rw [History.truncate_eq_self few, with_history_eq loaded]
      exact .stop (recorded_eq loaded ▸ few)
    · have more : steps < history.steps := Nat.lt_of_not_le few
      obtain ⟨t, shorter, taken, less⟩ := History.exists_undo_eq (Nat.zero_lt_of_lt more)
      have undone := undo_eq loaded
      rw [taken] at undone
      rw [History.truncate_of_undo taken more]
      exact .undo (recorded_eq loaded ▸ more) undone (ih rfl (by omega))

theorem UndoneTo.unique {reached other : Session} (h : UndoneTo steps session reached)
    (h' : UndoneTo steps session other) : reached = other := by
  induction h with
  | stop few =>
    cases h' with
    | stop few' => rfl
    | undo more undone rest => exact absurd few (Nat.not_le_of_lt more)
  | undo more undone rest ih =>
    cases h' with
    | stop few => exact absurd few (Nat.not_le_of_lt more)
    | undo more' undone' rest' =>
      cases undone.symm.trans undone'
      exact ih rest'

/-- Going back to a step is to undo as long as more steps are on record. -/
theorem rewind_eq_iff (loaded : session.history = some history) :
    session.rewind steps = .ok (t, next) ↔
      UndoneTo steps session next ∧ next.current = some t := by
  have undone := undoneTo_truncate loaded steps
  rw [rewind_eq loaded]
  constructor
  · intro eq
    cases eq
    exact ⟨undone, rfl⟩
  · rintro ⟨undone', current⟩
    cases undone.unique undone'
    cases current
    rfl

/-! ## Moving along a history -/

theorem afterAttempt_cases {α : Type} (session : Session)
    (result : Except SessionError (Option (α × Session))) :
    session.afterAttempt result = session ∨
      ∃ value next, result = .ok (some (value, next)) ∧ session.afterAttempt result = next := by
  rcases result with fault | - | pair
  · exact .inl rfl
  · exact .inl rfl
  · exact .inr ⟨pair.1, pair.2, rfl, rfl⟩

theorem move_afterAttempt (loaded : session.history = some history)
    {result : Except SessionError (Option (Term × Session))}
    (steps : ∀ t next, result = .ok (some (t, next)) → StepsTo session t next) :
    session.afterAttempt result = session ∨
      ∃ t, session.afterAttempt result = { session with history := some (history.push t) } := by
  obtain same | ⟨t, next, eq, same⟩ := afterAttempt_cases session result
  · exact .inl same
  · obtain ⟨address, step⟩ := (steps t next eq).exists_step
    obtain ⟨history', past, -, rfl⟩ := of_step step
    cases loaded.symm.trans past
    exact .inr ⟨t, same⟩

/-- A request that only moves along the history does so, and goes back only if it is to. -/
theorem perform_of_moves (loaded : session.history = some history) (moves : request.moves = true) :
    ∃ left, session.perform request = { session with history := some left } ∧
      history.Move left ∧ (request.goesBack = false → history.steps ≤ left.steps) := by
  have idle := (with_history_eq loaded).symm
  -- the three kinds of steps differ only in how they find the address
  have stepped {result : Except SessionError (Option (Term × Session))}
      (steps : ∀ t next, result = .ok (some (t, next)) → StepsTo session t next) :
      ∃ left, session.afterAttempt result = { session with history := some left } ∧
        history.Move left ∧ (request.goesBack = false → history.steps ≤ left.steps) := by
    obtain same | ⟨t, same⟩ := move_afterAttempt loaded steps
    · exact ⟨history, same.trans idle, .idle, fun _ => Nat.le_refl _⟩
    · exact ⟨history.push t, same, .forward t, fun _ => Nat.le_succ _⟩
  cases request with
  | step address => exact stepped fun t next eq => .byAddress address eq
  | stepNth number => exact stepped fun t next eq => .byNumber number eq
  | stepAuto => exact stepped fun t next eq => .byPolicy eq
  | undo =>
    obtain same | ⟨t, next, eq, same⟩ := afterAttempt_cases session session.undo
    · exact ⟨history, same.trans idle, .idle, nofun⟩
    · obtain ⟨history', shorter, past, taken, rfl⟩ := of_undo eq
      cases loaded.symm.trans past
      exact ⟨shorter, same, .back ⟨[t], History.toList_of_undo taken⟩, nofun⟩
  | rewind steps =>
    refine ⟨history.truncate (steps + 1), ?_, .back ?_, nofun⟩
    · rw [perform, rewind_eq loaded]
      rfl
    · rw [History.toList_truncate]
      exact List.take_prefix _ _
  | _ => cases moves

theorem lowest_le_recorded (session : Session) (requests : List Request) :
    session.lowest requests ≤ session.recorded := by
  cases requests with
  | nil => exact Nat.le_refl _
  | cons request rest => exact Nat.min_le_left _ _

theorem after_moves {requests : List Request} (loaded : session.history = some history)
    (moves : ∀ request ∈ requests, request.moves = true) :
    ∃ left, session.after requests = { session with history := some left } ∧
      session.lowest requests ≤ left.steps ∧
      ∀ i ≤ session.lowest requests, left.get? i = history.get? i := by
  induction requests generalizing session history with
  | nil =>
    exact ⟨history, (with_history_eq loaded).symm, Nat.le_of_eq (recorded_eq loaded),
      fun _ _ => rfl⟩
  | cons request rest ih =>
    rw [List.forall_mem_cons] at moves
    obtain ⟨mid, performed, move, -⟩ := perform_of_moves loaded moves.1
    have past : (session.perform request).history = some mid := by rw [performed]
    obtain ⟨left, eq, reaches, same⟩ := ih past moves.2
    refine ⟨left, ?_, Nat.le_trans (Nat.min_le_right _ _) reaches, ?_⟩
    · rw [after, List.foldl_cons, ← after, eq, performed]
    · intro i low
      have start : i ≤ history.steps :=
        recorded_eq loaded ▸ Nat.le_trans low (Nat.min_le_left _ _)
      have later : i ≤ (session.perform request).lowest rest :=
        Nat.le_trans low (Nat.min_le_right _ _)
      have second : i ≤ mid.steps :=
        recorded_eq past ▸ Nat.le_trans later (lowest_le_recorded _ _)
      rw [same i later, move.get?_eq start second]

/-- If there were ever fewer steps on record than at the start, a request to go back left that
few. -/
theorem lowest_cases {requests : List Request} (loaded : session.history = some history)
    (moves : ∀ request ∈ requests, request.moves = true) :
    session.lowest requests = history.steps ∨
      ∃ before request rest, requests = before ++ request :: rest ∧ request.goesBack = true ∧
        session.lowest requests = (session.after (before ++ [request])).recorded := by
  induction requests generalizing session history with
  | nil => exact .inl (recorded_eq loaded)
  | cons request rest ih =>
    rw [List.forall_mem_cons] at moves
    obtain ⟨mid, performed, -, forward⟩ := perform_of_moves loaded moves.1
    have past : (session.perform request).history = some mid := by rw [performed]
    rw [lowest, recorded_eq loaded]
    by_cases less : (session.perform request).lowest rest < history.steps
    · right
      rw [Nat.min_eq_right (Nat.le_of_lt less)]
      obtain start | ⟨before, back, later, rfl, goesBack, eq⟩ := ih past moves.2
      · refine ⟨[], request, rest, rfl, ?_, start.trans (recorded_eq past).symm⟩
        by_contra onward
        have grown := forward (Bool.eq_false_iff.mpr onward)
        omega
      · exact ⟨request :: before, back, later, rfl, goesBack, eq⟩
    · exact .inl (Nat.min_eq_left (Nat.le_of_not_lt less))

/-- **Going back.** After any number of successful steps, however each was chosen, as many undos
take back the terms they led to, newest first, and give back the very session they started from.
Going back to a step always succeeds and is the same as undoing as long as more steps are on record,
so that it changes nothing when there are no more than that. Whatever steps, undos and returns to
earlier steps follow each other, and whether or not they succeed, they change nothing but the
history. Its first term stays, and so do the terms up to the lowest point, which is the start or
where an undo or a return led to. -/
theorem going_back_inverts_steps (loaded : session.history = some history) :
    (∀ terms next, Trip session terms next →
      next.undoTimes terms.length = .ok (terms, session)) ∧
    (∀ steps, (∃ t next, session.rewind steps = .ok (t, next)) ∧
      (∀ t next, session.rewind steps = .ok (t, next) ↔
        UndoneTo steps session next ∧ next.current = some t) ∧
      (history.steps ≤ steps → session.rewind steps = .ok (history.current, session))) ∧
    ∀ requests : List Request, (∀ request ∈ requests, request.moves = true) →
      ∃ left, session.after requests = { session with history := some left } ∧
        left.initial = history.initial ∧ session.lowest requests ≤ left.steps ∧
        (∀ i ≤ session.lowest requests, left.get? i = history.get? i) ∧
        (session.lowest requests = history.steps ∨
          ∃ before request rest, requests = before ++ request :: rest ∧ request.goesBack = true ∧
            session.lowest requests = (session.after (before ++ [request])).recorded) := by
  refine ⟨fun terms next trip => trip.undoTimes_eq, ?_, ?_⟩
  · intro steps
    exact ⟨⟨_, _, rewind_eq loaded steps⟩, fun t next => rewind_eq_iff loaded,
      rewind_eq_self loaded⟩
  · intro requests moves
    obtain ⟨left, eq, reaches, same⟩ := after_moves loaded moves
    exact ⟨left, eq, Option.some.inj (same 0 (Nat.zero_le _)), reaches, same,
      lowest_cases loaded moves⟩

/-- The terms of `I (I y)`, reduced by address, by number and by the policy. Later the third term is
taken back together with a fourth one, and another term comes in its place. -/
theorem going_back_inverts_steps_mixed :
    let identity : Term := .lam "x" (.var "x" 1)
    let t₀ : Term := .app (.free "I") (.app (.free "I") (.free "y"))
    let t₁ : Term := .app (.free "I") (.app identity (.free "y"))
    let t₂ : Term := .app (.free "I") (.free "y")
    let t₃ : Term := .app identity (.free "y")
    let upTo : List Term → Session := fun later =>
      { Session.new (Environment.empty.insert "I" identity) with history := some ⟨t₀, later⟩ }
    let requests : List Request := [.stepAuto, .undo, .undo, .stepNth 9, .stepNth 1, .rewind 5]
    Trip (upTo []) [t₃, t₂, t₁] (upTo [t₃, t₂, t₁]) ∧
      (upTo [t₃, t₂, t₁]).undoTimes 3 = .ok ([t₃, t₂, t₁], upTo []) ∧
      UndoneTo 1 (upTo [t₃, t₂, t₁]) (upTo [t₁]) ∧
      (upTo [t₂, t₁]).rewind 2 = .ok (t₂, upTo [t₂, t₁]) ∧
      (∀ request ∈ requests, request.moves = true) ∧ (upTo [t₂, t₁]).lowest requests = 1 ∧
      ∃ left, (upTo [t₂, t₁]).after requests = { upTo [t₂, t₁] with history := some left } ∧
        left.get? 1 = some t₁ ∧ left.get? 2 = some (.app identity (.app identity (.free "y"))) := by
  intro identity t₀ t₁ t₂ t₃ upTo requests
  have trip : Trip (upTo []) [t₃, t₂, t₁] (upTo [t₃, t₂, t₁]) := by
    have first : StepsTo (upTo []) t₁ (upTo [t₁]) := .byAddress [.arg, .func] (by decide +kernel)
    have second : StepsTo (upTo [t₁]) t₂ (upTo [t₂, t₁]) := .byNumber 2 (by decide +kernel)
    have third : StepsTo (upTo [t₂, t₁]) t₃ (upTo [t₃, t₂, t₁]) := .byPolicy (by decide +kernel)
    exact .step (.step (.step .stay first) second) third
  have moves : ∀ request ∈ requests, request.moves = true := by decide
  have lowest : (upTo [t₂, t₁]).lowest requests = 1 := by decide +kernel
  have loaded : ∀ later, (upTo later).history = some ⟨t₀, later⟩ := fun _ => rfl
  obtain ⟨-, rewinds, -⟩ := going_back_inverts_steps (loaded [t₃, t₂, t₁])
  obtain ⟨inverts, -, -⟩ := going_back_inverts_steps (loaded [])
  obtain ⟨-, rewinds', runs⟩ := going_back_inverts_steps (loaded [t₂, t₁])
  obtain ⟨left, eq, -, -, same, -⟩ := runs requests moves
  have reached : ((upTo [t₂, t₁]).after requests).history =
      some ⟨t₀, [.app identity (.app identity (.free "y")), t₁]⟩ := by decide +kernel
  rw [eq] at reached
  refine ⟨trip, inverts _ _ trip, (((rewinds 1).2.1 t₁ (upTo [t₁])).mp rfl).1,
    (rewinds' 2).2.2 (by decide), moves, lowest, left, eq, ?_, ?_⟩
  · exact (same 1 (by rw [lowest])).trans rfl
  · rw [Option.some.inj reached]
    rfl

end Session

end LambdaWorkbench
