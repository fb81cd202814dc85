import LambdaWorkbench.Prompt.Line
import LambdaWorkbench.Proofs.Prompt.Outcome
import LambdaWorkbench.Proofs.Session.Provenance

/-! # The numbers of redexes

The redexes of the current term are listed with numbers from one. The list that is printed, the one
that a number is looked up in and the one that the policy picks from are the same, and everything in
it can be described and reduced. So a number steps where its line says, and the policy makes the
step of some number.
-/

namespace LambdaWorkbench

namespace Session

variable {session : Session} {history : History} {address : Address} {i number : Nat}

/-- Listed redexes can be looked up, described and reduced. -/
theorem exists_of_mem_redexes (loaded : session.history = some history)
    (mem : address ∈ session.env.redexes history.current) :
    ∃ sub redex t, history.current.subterm address = .ok sub ∧
      session.describe address = .ok (.ok redex) ∧
      session.step address =
        .ok (some (t, { session with history := some (history.push t) })) := by
  obtain ⟨t, reduced⟩ := Environment.mem_redexes_iff.mp mem
  obtain ⟨redex, classified⟩ := Environment.mem_redexes_iff_classify.mp mem
  obtain ⟨binders, sub, path⟩ := Environment.exists_path_of_reduceAt reduced
  refine ⟨sub, redex, t, path.subterm_eq, ?_, ?_⟩
  · rw [describe_eq loaded, classified]
    rfl
  · rw [step_eq loaded, reduced]
    rfl

theorem stepNth_of_getElem? (loaded : session.history = some history)
    (found : (session.env.redexes history.current)[i]? = some address) :
    session.stepNth (i + 1) = session.step address := by
  rw [stepNth, redexes_eq loaded]
  simp only [bind, Except.bind, Nat.add_sub_cancel, found]

/-- Numbers count from one. -/
theorem stepNth_of_unlisted (loaded : session.history = some history)
    (unlisted : number = 0 ∨ (session.env.redexes history.current).length < number) :
    session.stepNth number =
      .error (.noSuchRedex number (session.env.redexes history.current).length) := by
  rw [stepNth, redexes_eq loaded]
  simp only [bind, Except.bind]
  cases number with
  | zero => rfl
  | succ i =>
    have beyond : (session.env.redexes history.current).length ≤ i :=
      Nat.le_of_lt_succ (unlisted.resolve_left (Nat.succ_ne_zero i))
    simp only [Nat.add_sub_cancel, List.getElem?_eq_none beyond]

theorem stepAuto_of_select (loaded : session.history = some history)
    (picked : session.policy.select (session.env.redexes history.current) = some address) :
    session.stepAuto = session.step address := by
  rw [stepAuto, redexes_eq loaded]
  simp only [bind, Except.bind, picked]

theorem stepAuto_eq_none_iff (loaded : session.history = some history) :
    session.stepAuto = .ok none ↔ session.env.redexes history.current = [] := by
  have ended : session.env.advance session.policy history.current = none ↔
      session.env.redexes history.current = [] := Environment.advance_eq_none_iff
  rw [stepAuto_eq loaded, ← ended]
  simp

/-- What the policy picks has one number, and is the step of that number. -/
theorem exists_number_of_select (loaded : session.history = some history)
    (picked : session.policy.select (session.env.redexes history.current) = some address) :
    ∃ i, (session.env.redexes history.current)[i]? = some address ∧
      (∀ j, (session.env.redexes history.current)[j]? = some address → j = i) ∧
      session.stepAuto = session.stepNth (i + 1) := by
  obtain ⟨i, within, here⟩ := List.mem_iff_getElem.mp (Policy.mem_of_select picked)
  have found := List.getElem?_eq_some_iff.mpr ⟨within, here⟩
  have distinct : (session.env.redexes history.current).Nodup := by
    refine (session.env.redexes_pairwise history.current).imp ?_
    rintro a _ less rfl
    exact List.lt_irrefl a less
  refine ⟨i, found, ?_, ?_⟩
  · intro j found'
    exact ((List.getElem?_inj within distinct).mp (found.trans found'.symm)).symm
  · rw [stepNth_of_getElem? loaded found, stepAuto_of_select loaded picked]

end Session

namespace Prompt

open Eval

variable {desk : Desk} {history : History}

/-- A line of the list: a number in brackets, the address of a redex of `t`, the redex itself, and
of which kind it is. -/
def Shows (session : Session) (t : Term) (number : Nat) (address : Address) (line : String) :
    Prop :=
  ∃ sub redex, t.subterm address = .ok sub ∧ session.describe address = .ok (.ok redex) ∧
    line = "  [" ++ toString number ++ "] " ++ address.render ++ ": " ++ session.render sub ++
      "  (" ++ redex.describe ++ ")"

theorem Shows.line_eq {session : Session} {t sub : Term} {number : Nat} {address : Address}
    {redex : Redex} {line : String} (h : Shows session t number address line)
    (found : t.subterm address = .ok sub) (described : session.describe address = .ok (.ok redex)) :
    line = "  [" ++ toString number ++ "] " ++ address.render ++ ": " ++ session.render sub ++
      "  (" ++ redex.describe ++ ")" := by
  obtain ⟨sub', redex', found', described', eq⟩ := h
  cases found.symm.trans found'
  cases described.symm.trans described'
  exact eq

/-- Listed redexes are printed one to a line, with numbers that go on from the given one. -/
theorem returns_sayRedexesFrom {addresses : List Address}
    (loaded : desk.session.history = some history)
    (listed : ∀ address ∈ addresses, address ∈ desk.session.env.redexes history.current)
    (number : Nat) :
    ∃ lines : List String, Returns (sayRedexesFrom history.current number addresses) desk ()
        { desk with printed := desk.printed ++ lines.toArray } ∧
      lines.length = addresses.length ∧
      ∀ i address, addresses[i]? = some address →
        ∃ line, lines[i]? = some line ∧
          Shows desk.session history.current (number + i) address line := by
  induction addresses generalizing desk number with
  | nil => exact ⟨[], rfl, rfl, nofun⟩
  | cons address rest ih =>
    rw [List.forall_mem_cons] at listed
    obtain ⟨sub, redex, -, found, described, -⟩ := Session.exists_of_mem_redexes loaded listed.1
    let line := redexLine desk.session number address sub redex.describe
    let next : Desk := { desk with printed := desk.printed.push line }
    have still : next.session.history = some history := loaded
    obtain ⟨lines, returns, length, shown⟩ := ih still listed.2 (number + 1)
    refine ⟨line :: lines, ?_, congrArg Nat.succ length, ?_⟩
    · rw [sayRedexesFrom]
      refine Returns.session_bind ?_
      refine Returns.ofExcept_bind described ?_
      refine Returns.ofExcept_bind found ?_
      refine (returns_say line desk).bind ?_
      simpa [next] using returns
    · intro i other there
      cases i with
      | zero =>
        cases there
        rw [Nat.add_zero]
        exact ⟨line, rfl, sub, redex, found, described, by simp only [line, redexLine]⟩
      | succ i =>
        rw [show number + (i + 1) = number + 1 + i by omega]
        exact shown i other there

/-- The list of redexes is printed whole, or the term is told to be a normal form. -/
theorem returns_sayRedexes (loaded : desk.session.history = some history) :
    let listed := desk.session.env.redexes history.current
    ∃ lines : List String,
      Returns sayRedexes desk () { desk with printed := desk.printed ++ lines.toArray } ∧
      (listed = [] → lines = ["  (normal form)"]) ∧
      (listed ≠ [] → lines.length = listed.length) ∧
      ∀ i address, listed[i]? = some address →
        ∃ line, lines[i]? = some line ∧
          Shows desk.session history.current (i + 1) address line := by
  intro listed
  by_cases normal : listed = []
  · refine ⟨["  (normal form)"], ?_, fun _ => rfl, (absurd normal ·), ?_⟩
    · refine Returns.session_bind ?_
      refine Returns.ofExcept_bind (Session.loaded_eq loaded) ?_
      refine Returns.ofExcept_bind (Session.redexes_eq loaded) ?_
      rw [show desk.session.env.redexes history.current = [] from normal]
      exact returns_say "  (normal form)" desk
    · rw [normal]
      exact nofun
  · have all : ∀ address ∈ listed, address ∈ desk.session.env.redexes history.current :=
      fun _ mem => mem
    obtain ⟨lines, returns, length, shown⟩ := returns_sayRedexesFrom loaded all 1
    refine ⟨lines, ?_, (absurd · normal), fun _ => length, ?_⟩
    · refine Returns.session_bind ?_
      refine Returns.ofExcept_bind (Session.loaded_eq loaded) ?_
      refine Returns.ofExcept_bind (Session.redexes_eq loaded) ?_
      rw [if_neg (by simpa [List.isEmpty_iff] using normal)]
      exact returns
    · intro i address here
      rw [Nat.add_comm i]
      exact shown i address here

/-- **The numbers shown are the numbers stepped.** Once a term is loaded, its list of redexes is
printed without failure: one line for each redex, numbered from one, or a single line for a normal
form. A number that is on a line steps as the address on that line does, which succeeds; any other
number is refused, together with the count, and leaves the session as it is. Stepping by the policy
has nothing to do exactly at a normal form; otherwise it is the step of the number under which the
address that the policy picks is listed. No address it picks is ever wrong. -/
theorem listed_numbers_step (loaded : desk.session.history = some history) :
    let session := desk.session
    let listed := session.env.redexes history.current
    session.redexes = .ok listed ∧
    (∃ lines : List String,
      Returns sayRedexes desk () { desk with printed := desk.printed ++ lines.toArray } ∧
      (listed = [] → lines = ["  (normal form)"]) ∧
      (listed ≠ [] → lines.length = listed.length) ∧
      ∀ n, 1 ≤ n → n ≤ listed.length → ∃ address line t next,
        listed[n - 1]? = some address ∧ lines[n - 1]? = some line ∧
          Shows session history.current n address line ∧
          session.step address = .ok (some (t, next)) ∧
          session.stepNth n = .ok (some (t, next))) ∧
    (∀ n, n = 0 ∨ listed.length < n →
      session.stepNth n = .error (.noSuchRedex n listed.length) ∧
        session.perform (.stepNth n) = session) ∧
    (session.stepAuto = .ok none ↔ listed = []) ∧
    (listed ≠ [] → ∃ i address, session.policy.select listed = some address ∧
      listed[i]? = some address ∧ (∀ j, listed[j]? = some address → j = i) ∧
      session.stepAuto = session.stepNth (i + 1)) ∧
    ∀ fault, session.stepAuto ≠ .error (.address fault) := by
  intro session listed
  refine ⟨Session.redexes_eq loaded, ?_, ?_, Session.stepAuto_eq_none_iff loaded, ?_, ?_⟩
  · obtain ⟨lines, returns, normal, length, shown⟩ := returns_sayRedexes loaded
    refine ⟨lines, returns, normal, length, ?_⟩
    intro n positive within
    obtain ⟨i, rfl⟩ := Nat.exists_eq_add_of_le' positive
    have found : listed[i]? = some listed[i] := List.getElem?_eq_getElem within
    obtain ⟨line, printed, shows⟩ := shown i _ found
    obtain ⟨-, -, t, -, -, step⟩ :=
      Session.exists_of_mem_redexes loaded (List.mem_of_getElem? found)
    refine ⟨listed[i], line, t, _, found, printed, shows, step, ?_⟩
    exact (Session.stepNth_of_getElem? loaded found).trans step
  · intro n unlisted
    have refused := Session.stepNth_of_unlisted loaded unlisted
    exact ⟨refused, by rw [Session.perform, refused]; rfl⟩
  · intro nonempty
    obtain ⟨address, picked, -⟩ := session.policy.exists_select nonempty
    obtain ⟨i, found, unique, same⟩ := Session.exists_number_of_select loaded picked
    exact ⟨i, address, picked, found, unique, same⟩
  · intro fault failed
    obtain ⟨result, eq⟩ := Session.exists_stepAuto_eq loaded
    cases failed.symm.trans eq

/-- The list of three redexes, one of each kind. The policy picks the second, a definition inside
the argument. -/
theorem listed_numbers_step_innermost :
    let identity : Term := .lam "x" (.var "x" 1)
    let t : Term := .app identity (.app (.free "I") (.free "3"))
    let session : Session := { Session.new (Environment.empty.insert "I" identity) with
      history := some (.start t), policy := .applicativeOrder }
    let desk : Desk := ⟨session, #[]⟩
    session.history = some (.start t) ∧
      session.redexes = .ok [[], [.arg, .func], [.arg, .arg]] ∧
      Returns sayRedexes desk () ⟨session,
        #["  [1] root: ((λx.x) (I 3))  (beta)",
          "  [2] arg-side/func-side: I  (definition of I)",
          "  [3] arg-side/arg-side: 3  (numeral 3)"]⟩ ∧
      session.stepNth 1 = session.step [] ∧ session.stepNth 2 = session.step [.arg, .func] ∧
      session.stepNth 3 = session.step [.arg, .arg] ∧
      session.stepNth 0 = .error (.noSuchRedex 0 3) ∧
      session.stepNth 4 = .error (.noSuchRedex 4 3) ∧ session.stepAuto = session.stepNth 2 := by
  intro identity t session desk
  have loaded : desk.session.history = some (.start t) := rfl
  have listed : session.env.redexes t = [[], [.arg, .func], [.arg, .arg]] := by decide +kernel
  have picked : session.policy.select (session.env.redexes t) = some [.arg, .func] := by
    decide +kernel
  obtain ⟨whole, ⟨lines, returns, -, length, stepped⟩, refused, -, chosen, -⟩ :=
    listed_numbers_step loaded
  replace listed : desk.session.env.redexes (History.start t).current =
    [[], [.arg, .func], [.arg, .arg]] := listed
  rw [listed] at whole length stepped refused chosen
  obtain ⟨first, second, third, rfl⟩ := List.length_eq_three.mp (length (List.cons_ne_nil _ _))
  have under (n : Nat) {address : Address} {line : String} (positive : 1 ≤ n) (within : n ≤ 3)
      (there : [[], [.arg, .func], [.arg, .arg]][n - 1]? = some address)
      (told : [first, second, third][n - 1]? = some line) :
      Shows session t n address line ∧ session.stepNth n = session.step address := by
    obtain ⟨_, _, u, next, found, printed, shows, step, stepNth⟩ := stepped n positive within
    cases there.symm.trans found
    cases told.symm.trans printed
    exact ⟨shows, stepNth.trans step.symm⟩
  obtain ⟨shows₁, step₁⟩ := under 1 (by decide) (by decide) rfl rfl
  obtain ⟨shows₂, step₂⟩ := under 2 (by decide) (by decide) rfl rfl
  obtain ⟨shows₃, step₃⟩ := under 3 (by decide) (by decide) rfl rfl
  have line₁ : first = "  [1] root: ((λx.x) (I 3))  (beta)" := shows₁.line_eq rfl rfl
  have line₂ : second = "  [2] arg-side/func-side: I  (definition of I)" :=
    shows₂.line_eq rfl rfl
  have line₃ : third = "  [3] arg-side/arg-side: 3  (numeral 3)" := shows₃.line_eq rfl rfl
  obtain ⟨i, address, eq, -, unique, same⟩ := chosen (List.cons_ne_nil _ _)
  rw [← listed] at eq
  cases picked.symm.trans eq
  cases unique 1 rfl
  rw [line₁, line₂, line₃] at returns
  exact ⟨loaded, whole, returns, step₁, step₂, step₃, (refused 0 (.inl rfl)).1,
    (refused 4 (.inr (by decide))).1, same⟩

end Prompt

end LambdaWorkbench
