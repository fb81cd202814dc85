import LambdaWorkbench.Proofs.Session.Operations
import LambdaWorkbench.Proofs.Term.Indexed
import Mathlib.Data.List.Chain
import Mathlib.Data.List.Induction

/-! # Where the terms of a history come from

A session is driven by requests, each of which it carries out or leaves without effect. `Change`
lists all that a request can do short of loading a term. What every change keeps, the whole run
keeps: a history begins with the term that was loaded last, and each later term is the one before it
reduced at some address, under an environment of that time.
-/

namespace LambdaWorkbench

namespace History

theorem toList_ne_nil (history : History) : history.toList ≠ [] :=
  List.cons_ne_nil _ _

theorem head?_toList (history : History) : history.toList.head? = some history.initial :=
  rfl

theorem getLast?_toList (history : History) :
    history.toList.getLast? = some history.current := by
  cases history with
  | mk initial later =>
    cases later with
    | nil => rfl
    | cons newest older =>
      rw [toList, List.reverse_cons, ← List.cons_append, List.getLast?_concat]
      rfl

theorem toList_of_undo {history shorter : History} {t : Term}
    (h : history.undo = (some t, shorter)) : shorter.toList ++ [t] = history.toList := by
  cases history with
  | mk initial later =>
    cases later with
    | nil => cases h
    | cons newest older =>
      cases h
      simp [toList]

end History

/-- What a session can be asked to do. -/
inductive Request where
  | load (text : String)
  | define (name text : String)
  | erase (name : String)
  | step (address : Address)
  | stepNth (number : Nat)
  | stepAuto
  | undo
  | rewind (steps : Nat)
  | setStyle (style : Style)
  | setPolicy (policy : Policy)
  | setStrict (strict : Bool)
  | setLimit (limit : Option Nat)

namespace Session

/-- The session after an operation, which changes nothing when it fails. -/
def afterResult {α : Type} (session : Session) : Except SessionError (α × Session) → Session
  | .ok (_, next) => next
  | .error _ => session

/-- The session after an operation that changes nothing when it fails or has nothing to do. -/
def afterAttempt {α : Type} (session : Session) :
    Except SessionError (Option (α × Session)) → Session
  | .ok (some (_, next)) => next
  | _ => session

/-- The session after a request. -/
def perform (session : Session) : Request → Session
  | .load text => session.afterResult (session.load text)
  | .define name text => session.afterResult (session.define name text)
  | .erase name => { session with env := session.env.erase name }
  | .step address => session.afterAttempt (session.step address)
  | .stepNth number => session.afterAttempt (session.stepNth number)
  | .stepAuto => session.afterAttempt session.stepAuto
  | .undo => session.afterAttempt session.undo
  | .rewind steps => session.afterResult (session.rewind steps)
  | .setStyle style => { session with style }
  | .setPolicy policy => { session with policy }
  | .setStrict strict => { session with strict }
  | .setLimit limit => { session with env := session.env.withLimit limit }

/-- The session after several requests, first to last. -/
def after (session : Session) (requests : List Request) : Session :=
  requests.foldl perform session

/-- The term that a request loads, if it is to load one and its text can be read. -/
def loads? (session : Session) : Request → Option Term
  | .load text => (session.read text).toOption
  | _ => none

/-- All that a request can do to a session other than to load a term. -/
inductive Change (session : Session) : Session → Prop
  | idle : Change session session
  | define (name : String) {term : Term} :
      term.reindex = term → Change session { session with env := session.env.insert name term }
  | erase (name : String) : Change session { session with env := session.env.erase name }
  | setLimit (limit : Option Nat) :
      Change session { session with env := session.env.withLimit limit }
  | choose (style : Style) (policy : Policy) (strict : Bool) :
      Change session { session with style, policy, strict }
  | reduce {history : History} {address : Address} {t : Term} :
      session.history = some history →
      session.env.reduceAt history.current address = .ok (some t) →
      Change session { session with history := some (history.push t) }
  | goBack {history shorter : History} :
      session.history = some history → shorter.toList <+: history.toList →
      Change session { session with history := some shorter }

variable {session next : Session} {request : Request} {t : Term}

theorem after_append (session : Session) (first rest : List Request) :
    session.after (first ++ rest) = (session.after first).after rest :=
  List.foldl_append

theorem after_concat (session : Session) (requests : List Request) (request : Request) :
    session.after (requests ++ [request]) = (session.after requests).perform request := by
  rw [after_append]
  rfl

theorem reindex_of_read {text : String} (h : session.read text = .ok t) : t.reindex = t := by
  unfold read at h
  split at h
  · exact Term.reindex_parse (Term.parse_of_parseStrict h)
  · exact Term.reindex_parse h

/-! ## One request -/

theorem change_of_step {address : Address} (h : session.step address = .ok (some (t, next))) :
    Change session next := by
  obtain ⟨history, past, reduced, rfl⟩ := of_step h
  exact .reduce past reduced

theorem change_afterResult {α : Type} {result : Except SessionError (α × Session)}
    (h : ∀ value next, result = .ok (value, next) → Change session next) :
    Change session (session.afterResult result) := by
  cases result with
  | error fault => exact .idle
  | ok pair => exact h pair.1 pair.2 rfl

theorem change_afterAttempt {α : Type} {result : Except SessionError (Option (α × Session))}
    (h : ∀ value next, result = .ok (some (value, next)) → Change session next) :
    Change session (session.afterAttempt result) := by
  rcases result with fault | - | pair
  · exact .idle
  · exact .idle
  · exact h pair.1 pair.2 rfl

/-- A request that loads a term starts its history and does nothing else. -/
theorem perform_of_loads (h : session.loads? request = some t) :
    t.reindex = t ∧
      session.perform request = { session with history := some (History.start t) } := by
  cases request with
  | load text =>
    rw [loads?] at h
    cases eq : session.read text with
    | error cause =>
      rw [eq] at h
      cases h
    | ok u =>
      rw [eq] at h
      cases h
      exact ⟨reindex_of_read eq, by rw [perform, load, eq]; rfl⟩
  | _ => cases h

theorem change_perform (h : session.loads? request = none) :
    Change session (session.perform request) := by
  cases request with
  | load text =>
    refine change_afterResult ?_
    intro t next eq
    obtain ⟨found, -⟩ := of_load eq
    rw [loads?, found] at h
    cases h
  | define name text =>
    refine change_afterResult ?_
    intro old next eq
    obtain ⟨term, parsed, rfl⟩ := of_define eq
    exact .define name (Term.reindex_parse parsed)
  | erase name => exact .erase name
  | step address =>
    refine change_afterAttempt ?_
    intro t next eq
    exact change_of_step eq
  | stepNth number =>
    refine change_afterAttempt ?_
    intro t next eq
    obtain ⟨address, eq⟩ := of_stepNth eq
    exact change_of_step eq
  | stepAuto =>
    refine change_afterAttempt ?_
    intro t next eq
    obtain ⟨address, eq⟩ := of_stepAuto eq
    exact change_of_step eq
  | undo =>
    refine change_afterAttempt ?_
    intro t next eq
    obtain ⟨history, shorter, past, taken, rfl⟩ := of_undo eq
    exact .goBack past ⟨[t], History.toList_of_undo taken⟩
  | rewind steps =>
    refine change_afterResult ?_
    intro t next eq
    obtain ⟨history, past, -, rfl⟩ := of_rewind eq
    refine .goBack past ?_
    rw [History.toList_truncate]
    exact List.take_prefix _ _
  | setStyle style => exact .choose style session.policy session.strict
  | setPolicy policy => exact .choose session.style policy session.strict
  | setStrict strict => exact .choose session.style session.policy strict
  | setLimit limit => exact .setLimit limit

theorem Change.indexed (h : Change session next) (indexed : session.env.Indexed) :
    next.env.Indexed := by
  cases h with
  | define name eq => exact indexed.insert name eq
  | erase name => exact indexed.erase name
  | _ => exact indexed

theorem Change.exists_history {history : History} (h : Change session next)
    (past : next.history = some history) : ∃ old, session.history = some old := by
  cases h with
  | reduce past' reduced => exact ⟨_, past'⟩
  | goBack past' oldest => exact ⟨_, past'⟩
  | _ => exact ⟨history, past⟩

/-! ## Several requests -/

/-- The history goes back to the term `t`: loading it left the session `loaded`, and the requests
`later` have been performed since. -/
structure Provenance (loaded : Session) (t : Term) (later : List Request) (history : History) :
    Prop where
  /-- No later request loads a term. -/
  latest : ∀ before request rest, later = before ++ request :: rest →
    (loaded.after before).loads? request = none
  initial : history.toList.head? = some t
  indexed : ∀ u ∈ history.toList, u.reindex = u
  /-- Each further term is the one before it, reduced under an environment of some moment since. -/
  reduced : history.toList.IsChain fun u v => ∃ before address, before <+: later ∧
    (loaded.after before).env.reduceAt u address = .ok (some v)

variable {loaded : Session} {later : List Request} {history : History}

theorem Provenance.start (indexed : t.reindex = t) :
    Provenance loaded t [] (History.start t) where
  latest := by
    intro before request rest eq
    cases List.nil_eq_append_iff.mp eq |>.2
  initial := rfl
  indexed := by
    intro u mem
    rw [List.mem_singleton.mp mem]
    exact indexed
  reduced := List.isChain_singleton t

theorem Provenance.kept (h : Provenance loaded t later history)
    (unloaded : (loaded.after later).loads? request = none) :
    Provenance loaded t (later ++ [request]) history where
  latest := by
    intro before other rest eq
    rcases List.eq_nil_or_concat rest with rfl | ⟨rest, last, rfl⟩
    · obtain ⟨rfl, same⟩ := List.append_inj' eq rfl
      cases same
      exact unloaded
    · rw [List.concat_eq_append, ← List.cons_append, ← List.append_assoc] at eq
      exact h.latest before other rest (List.append_inj' eq rfl).1
  initial := h.initial
  indexed := h.indexed
  reduced := by
    refine h.reduced.imp ?_
    intro u v ⟨before, address, since, eq⟩
    exact ⟨before, address, since.trans (List.prefix_append later [request]), eq⟩

theorem Provenance.push {address : Address} {v : Term} (h : Provenance loaded t later history)
    (eq : (loaded.after later).env.reduceAt history.current address = .ok (some v)) :
    Provenance loaded t later (history.push v) where
  latest := h.latest
  initial := by
    rw [History.toList_push, List.head?_append, h.initial]
    rfl
  indexed := by
    intro u mem
    rw [History.toList_push] at mem
    rcases List.mem_append.mp mem with old | new
    · exact h.indexed u old
    · rw [List.mem_singleton.mp new]
      exact Environment.reindex_of_reduceAt eq
  reduced := by
    rw [History.toList_push]
    refine h.reduced.append (List.isChain_singleton v) ?_
    intro x last y first
    rw [History.getLast?_toList] at last
    cases last
    cases first
    exact ⟨later, address, List.prefix_rfl, eq⟩

theorem Provenance.shorten {shorter : History} (h : Provenance loaded t later history)
    (oldest : shorter.toList <+: history.toList) : Provenance loaded t later shorter where
  latest := h.latest
  initial := by
    obtain ⟨rest, eq⟩ := oldest
    have first := h.initial
    rw [← eq, List.head?_append, shorter.head?_toList] at first
    exact first
  indexed := by
    intro u mem
    exact h.indexed u (oldest.subset mem)
  reduced := h.reduced.prefix oldest

/-- What a request leaves of a history goes back to the same term, unless it loads another. -/
theorem Provenance.perform {left : History} (h : Provenance loaded t later history)
    (past : (loaded.after later).history = some history)
    (unloaded : (loaded.after later).loads? request = none)
    (eq : ((loaded.after later).perform request).history = some left) :
    Provenance loaded t (later ++ [request]) left := by
  refine Provenance.kept ?_ unloaded
  generalize (loaded.after later).perform request = next, change_perform unloaded = change at eq
  cases change with
  | reduce past' reduced =>
    cases past.symm.trans past'
    cases eq
    exact h.push reduced
  | goBack past' oldest =>
    cases past.symm.trans past'
    cases eq
    exact h.shorten oldest
  | _ =>
    cases past.symm.trans eq
    exact h

theorem indexed_after (built : session.env.Built) (requests : List Request) :
    (session.after requests).env.Indexed := by
  induction requests using List.reverseRecOn with
  | nil => exact built.indexed
  | append_singleton requests request ih =>
    rw [after_concat]
    cases loading : (session.after requests).loads? request with
    | none => exact (change_perform loading).indexed ih
    | some t =>
      rw [(perform_of_loads loading).2]
      exact ih

/-- **Histories.** In a session that starts with definitions that were read, and that is driven by
any requests whatsoever, all definitions keep their indices. The history, if there is one, is not
empty; it begins with the term of the latest load that succeeded, all its terms have their indices,
and each after the first is the one before it reduced at some address, under an environment of some
moment since that load. -/
theorem history_provenance {env : Environment} (built : env.Built) (requests : List Request) :
    ((new env).after requests).env.Indexed ∧
      ∀ history, ((new env).after requests).history = some history →
        history.toList ≠ [] ∧
          ∃ before request later t, requests = before ++ request :: later ∧
            ((new env).after before).loads? request = some t ∧
            Provenance ((new env).after (before ++ [request])) t later history := by
  refine ⟨indexed_after built requests, ?_⟩
  intro history past
  refine ⟨history.toList_ne_nil, ?_⟩
  induction requests using List.reverseRecOn generalizing history with
  | nil => cases past
  | append_singleton requests request ih =>
    cases loading : ((new env).after requests).loads? request with
    | some t =>
      obtain ⟨indexed, eq⟩ := perform_of_loads loading
      rw [after_concat, eq] at past
      cases past
      exact ⟨requests, request, [], t, rfl, loading, .start indexed⟩
    | none =>
      rw [after_concat] at past
      obtain ⟨old, past'⟩ := (change_perform loading).exists_history past
      obtain ⟨before, load, later, t, rfl, loads, provenance⟩ := ih old past'
      rw [List.append_cons, after_append] at past past' loading
      exact ⟨before, load, later ++ [request], t, List.append_assoc _ _ _, loads,
        provenance.perform past' loading past⟩

/-- `I` is redefined while a term that has it twice is reduced, so that the two uses take different
definitions. The second load fails, as its text is not balanced. -/
theorem history_provenance_redefined :
    let env := Environment.empty.insert "I" (.lam "x" (.var "x" 1))
    let requests : List Request := [.load "I I", .stepAuto, .define "I" "λz.w", .setStrict true,
      .load "(y", .stepAuto, .stepAuto, .undo, .stepNth 1]
    let history : History := ⟨.app (.free "I") (.free "I"), [.lam "z" (.free "w"), .free "I",
      .app (.lam "x" (.var "x" 1)) (.free "I")]⟩
    env.Built ∧ ((new env).after requests).history = some history ∧
      ∃ before request later t, requests = before ++ request :: later ∧
        ((new env).after before).loads? request = some t ∧
        Provenance ((new env).after (before ++ [request])) t later history := by
  intro env requests history
  have built : env.Built :=
    .ofDefinitions (show Environment.ofDefinitions [("I", "λx.x")] = .ok env by decide +kernel)
  have past : ((new env).after requests).history = some history := by decide +kernel
  exact ⟨built, past, ((history_provenance built requests).2 history past).2⟩

end Session

end LambdaWorkbench
