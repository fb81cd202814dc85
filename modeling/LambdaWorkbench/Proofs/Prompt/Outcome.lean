import LambdaWorkbench.Prompt.Eval

/-! # Outcomes of evaluations

An evaluation on a given desk returns or fails, and leaves a desk either way. It is atomic when a
failure leaves the desk it was given. That is so as long as all its failures come before its first
change: what only reads may come before an atomic part, and what cannot fail may come after one.
-/

namespace LambdaWorkbench.Eval

variable {α β : Type}

def Returns (eval : Eval α) (desk : Desk) (value : α) (desk' : Desk) : Prop :=
  eval.run.run desk = (.ok value, desk')

def Fails (eval : Eval α) (desk : Desk) (failure : Failure) (desk' : Desk) : Prop :=
  eval.run.run desk = (.error failure, desk')

/-- A failure leaves the desk as it was. -/
def Atomic (eval : Eval α) (desk : Desk) : Prop :=
  ∀ failure desk', Fails eval desk failure desk' → desk' = desk

/-- There is no failure. -/
def Succeeds (eval : Eval α) (desk : Desk) : Prop :=
  ∃ value desk', Returns eval desk value desk'

/-- There is no failure, and all that is done is to print. -/
def Prints (eval : Eval α) (desk : Desk) : Prop :=
  ∃ value desk', Returns eval desk value desk' ∧ desk'.session = desk.session

variable {eval : Eval α} {f : α → Eval β} {desk desk' mid : Desk} {value : α} {result : β}
  {failure : Failure}

theorem returns_or_fails (eval : Eval α) (desk : Desk) :
    (∃ value desk', Returns eval desk value desk') ∨
      ∃ failure desk', Fails eval desk failure desk' := by
  cases eq : eval.run.run desk with
  | mk outcome desk' =>
    cases outcome with
    | ok value => exact .inl ⟨value, desk', eq⟩
    | error failure => exact .inr ⟨failure, desk', eq⟩

theorem Returns.not_fails (h : Returns eval desk value mid) : ¬ Fails eval desk failure desk' := by
  intro fails
  cases h.symm.trans fails

/-! ## One part after another -/

theorem run_bind (first : Returns eval desk value mid) :
    (eval >>= f).run.run desk = (f value).run.run mid := by
  rw [ExceptT.run_bind, StateT.run_bind, first]
  rfl

theorem Returns.bind (first : Returns eval desk value mid)
    (rest : Returns (f value) mid result desk') : Returns (eval >>= f) desk result desk' :=
  (run_bind first).trans rest

theorem Fails.bind (first : Fails eval desk failure mid) : Fails (eval >>= f) desk failure mid := by
  rw [Fails, ExceptT.run_bind, StateT.run_bind, first]
  rfl

/-- A failure is one of the first part, or one of the rest after the first part has returned. -/
theorem fails_bind (h : Fails (eval >>= f) desk failure desk') :
    Fails eval desk failure desk' ∨
      ∃ value mid, Returns eval desk value mid ∧ Fails (f value) mid failure desk' := by
  rcases returns_or_fails eval desk with ⟨value, mid, first⟩ | ⟨other, mid, first⟩
  · exact .inr ⟨value, mid, first, (run_bind first).symm.trans h⟩
  · cases (first.bind (f := f)).symm.trans h
    exact .inl first

theorem Succeeds.atomic (h : Succeeds eval desk) : Atomic eval desk := by
  intro failure desk' fails
  obtain ⟨value, mid, returns⟩ := h
  exact (returns.not_fails fails).elim

theorem Fails.atomic (h : Fails eval desk failure desk) : Atomic eval desk := by
  intro other desk' fails
  cases h.symm.trans fails
  rfl

theorem Prints.succeeds (h : Prints eval desk) : Succeeds eval desk := by
  obtain ⟨value, desk', returns, -⟩ := h
  exact ⟨value, desk', returns⟩

theorem Succeeds.bind (rest : Succeeds (f value) mid) (first : Returns eval desk value mid) :
    Succeeds (eval >>= f) desk := by
  obtain ⟨result, desk', returns⟩ := rest
  exact ⟨result, desk', first.bind returns⟩

theorem Prints.bind (first : Prints eval desk)
    (rest : ∀ value mid, mid.session = desk.session → Prints (f value) mid) :
    Prints (eval >>= f) desk := by
  obtain ⟨value, mid, returns, same⟩ := first
  obtain ⟨result, desk', others, same'⟩ := rest value mid same
  exact ⟨result, desk', returns.bind others, same'.trans same⟩

/-- What cannot fail may follow an atomic part. -/
theorem Atomic.bind (first : Atomic eval desk)
    (rest : ∀ value mid, Returns eval desk value mid → Succeeds (f value) mid) :
    Atomic (eval >>= f) desk := by
  intro failure desk' fails
  rcases fails_bind fails with early | ⟨value, mid, returns, late⟩
  · exact first failure desk' early
  · obtain ⟨result, last, returns'⟩ := rest value mid returns
    exact (returns'.not_fails late).elim

/-! ## Reading

What comes before the first change asks the session or takes the value of a result.
-/

section Reading

variable {ε : Type} {fault : ε → Failure} {outcome : Except ε α} {g : Session → Eval β}

theorem Atomic.session_bind (h : Atomic (g desk.session) desk) : Atomic (session >>= g) desk :=
  h

theorem Prints.session_bind (h : Prints (g desk.session) desk) : Prints (session >>= g) desk :=
  h

theorem Returns.session_bind (h : Returns (g desk.session) desk result desk') :
    Returns (session >>= g) desk result desk' :=
  h

theorem fails_throw (failure : Failure) (desk : Desk) :
    Fails (throw failure : Eval α) desk failure desk :=
  rfl

theorem Atomic.ofExcept_bind (h : ∀ value, outcome = .ok value → Atomic (f value) desk) :
    Atomic (ofExcept fault outcome >>= f) desk := by
  cases outcome with
  | ok value => exact h value rfl
  | error error => exact (fails_throw (fault error) desk).bind.atomic

theorem Prints.ofExcept_bind (eq : outcome = .ok value) (h : Prints (f value) desk) :
    Prints (ofExcept fault outcome >>= f) desk := by
  rw [eq]
  exact h

theorem Returns.ofExcept_bind (eq : outcome = .ok value)
    (h : Returns (f value) desk result desk') :
    Returns (ofExcept fault outcome >>= f) desk result desk' := by
  rw [eq]
  exact h

theorem Fails.ofExcept_bind (eq : outcome = .ok value) (h : Fails (f value) desk failure desk') :
    Fails (ofExcept fault outcome >>= f) desk failure desk' := by
  rw [eq]
  exact h

theorem fails_ofExcept {error : ε} (eq : outcome = .error error) (desk : Desk) :
    Fails (ofExcept fault outcome) desk (fault error) desk := by
  rw [eq]
  exact fails_throw (fault error) desk

/-- An activity that does not fail is its evaluation. -/
theorem Returns.during (h : Returns eval desk value desk') (activity : Activity) :
    Returns (during activity eval) desk value desk' := by
  show (Except.mapError (Failure.during activity) <$> eval.run).run desk = (.ok value, desk')
  rw [StateT.run_map, h]
  rfl

theorem Fails.during (h : Fails eval desk failure desk') (activity : Activity) :
    Fails (during activity eval) desk (.during activity failure) desk' := by
  show (Except.mapError (Failure.during activity) <$> eval.run).run desk =
    (.error (.during activity failure), desk')
  rw [StateT.run_map, h]
  rfl

theorem during_ofExcept (activity : Activity) :
    during activity (ofExcept fault outcome) =
      ofExcept (fun error => .during activity (fault error)) outcome := by
  cases outcome <;> rfl

theorem Atomic.readNumber_bind {g : Nat → Eval β} (activity : Activity) (text : String)
    (h : ∀ number, Atomic (g number) desk) : Atomic (readNumber activity text >>= g) desk := by
  rw [readNumber, during_ofExcept]
  refine Atomic.ofExcept_bind ?_
  intro number eq
  exact h number

end Reading

/-! ## Printing -/

theorem prints_pure (value : α) (desk : Desk) : Prints (pure value) desk :=
  ⟨value, desk, rfl, rfl⟩

theorem returns_say (line : String) (desk : Desk) :
    Returns (say line) desk () { desk with printed := desk.printed.push line } :=
  rfl

theorem returns_sayTerm (mark : String) (t : Term) (desk : Desk) :
    Returns (sayTerm mark t) desk ()
      { desk with printed := desk.printed.push (mark ++ desk.session.render t) } :=
  rfl

theorem prints_say (line : String) (desk : Desk) : Prints (say line) desk :=
  ⟨(), _, returns_say line desk, rfl⟩

theorem prints_sayTerm (mark : String) (t : Term) (desk : Desk) : Prints (sayTerm mark t) desk :=
  ⟨(), _, returns_sayTerm mark t desk, rfl⟩

theorem prints_forM {ι : Type} {act : ι → Eval Unit} (h : ∀ item desk, Prints (act item) desk)
    (items : List ι) (desk : Desk) : Prints (items.forM act) desk := by
  induction items generalizing desk with
  | nil => exact prints_pure () desk
  | cons item rest ih =>
    rw [List.forM_eq_forM, List.forM_cons]
    refine (h item desk).bind ?_
    intro done mid same
    exact ih mid

/-- A line printed for each item. -/
theorem returns_forM_say {ι : Type} (line : ι → String) (items : List ι) (desk : Desk) :
    Returns (items.forM fun item => say (line item)) desk ()
      { desk with printed := desk.printed ++ (items.map line).toArray } := by
  induction items generalizing desk with
  | nil => rw [List.map_nil, Array.append_empty]; rfl
  | cons item rest ih =>
    rw [List.forM_eq_forM, List.forM_cons]
    refine (returns_say (line item) desk).bind ?_
    have rest := ih { desk with printed := desk.printed.push (line item) }
    simpa [List.forM_eq_forM] using rest

/-! ## Operations of the session -/

section Asking

variable {next : Session} {fault : SessionError}

section

variable {operation : Session → Except SessionError (α × Session)}

theorem returns_ask (h : operation desk.session = .ok (value, next)) :
    Returns (ask operation) desk value { desk with session := next } := by
  show (ofExcept .session (operation desk.session) >>= _).run.run desk = _
  rw [h]
  rfl

theorem fails_ask (h : operation desk.session = .error fault) :
    Fails (ask operation) desk (.session fault) desk := by
  show (ofExcept .session (operation desk.session) >>= _).run.run desk = _
  rw [h]
  rfl

/-- After an operation that has been carried out, nothing may fail. -/
theorem Atomic.ask_bind
    (h : ∀ value next, operation desk.session = .ok (value, next) →
      Succeeds (f value) { desk with session := next }) : Atomic (ask operation >>= f) desk := by
  cases eq : operation desk.session with
  | error fault => exact (fails_ask eq).bind.atomic
  | ok pair => exact ((h pair.1 pair.2 eq).bind (returns_ask eq)).atomic

end

section

variable {operation : Session → Except SessionError (Option (α × Session))}

theorem returns_tryAsk (h : operation desk.session = .ok (some (value, next))) :
    Returns (tryAsk operation) desk (some value) { desk with session := next } := by
  show (ofExcept .session (operation desk.session) >>= _).run.run desk = _
  rw [h]
  rfl

theorem returns_tryAsk_none (h : operation desk.session = .ok none) :
    Returns (tryAsk operation) desk none desk := by
  show (ofExcept .session (operation desk.session) >>= _).run.run desk = _
  rw [h]
  rfl

theorem fails_tryAsk (h : operation desk.session = .error fault) :
    Fails (tryAsk operation) desk (.session fault) desk := by
  show (ofExcept .session (operation desk.session) >>= _).run.run desk = _
  rw [h]
  rfl

theorem Atomic.tryAsk_bind {f : Option α → Eval β}
    (done : ∀ value next, operation desk.session = .ok (some (value, next)) →
      Succeeds (f (some value)) { desk with session := next })
    (idle : operation desk.session = .ok none → Succeeds (f none) desk) :
    Atomic (tryAsk operation >>= f) desk := by
  rcases eq : operation desk.session with fault | - | pair
  · exact (fails_tryAsk eq).bind.atomic
  · exact ((idle eq).bind (returns_tryAsk_none eq)).atomic
  · exact ((done pair.1 pair.2 eq).bind (returns_tryAsk eq)).atomic

end

end Asking

end LambdaWorkbench.Eval
