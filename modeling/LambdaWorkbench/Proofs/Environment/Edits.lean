import LambdaWorkbench.Proofs.Environment.Extension
import Mathlib.Data.List.Induction

/-!
# Editing an environment

What a run of edits did is told by its log: which name was given which term and which name was
removed, in the order in which this happened. The log alone determines the definitions. The term of
a name is the last one it was given, and its place is that of the moment at which it came in, since
when it may have been given other terms but has not been removed.
-/

namespace LambdaWorkbench

namespace Environment

/-! ## Edits and their log -/

inductive Edit where
  | insert (name : String) (term : Term)
  | define (name text : String)
  | remove (name : String)
  | extend (other : Environment)
  | setLimit (limit : Option Nat)

structure Change where
  name : String
  /-- The new term of the name, or `none` when it is removed. -/
  term? : Option Term
  deriving DecidableEq

/-- The changes that an edit asks for, in their order. A definition that cannot be parsed asks for
none. -/
def Edit.changes : Edit → List Change
  | .insert name term => [⟨name, some term⟩]
  | .define name text =>
    match Term.parse text with
    | .ok term => [⟨name, some term⟩]
    | .error _ => []
  | .remove name => [⟨name, none⟩]
  | .extend other => other.entries.map fun entry => ⟨entry.1, some entry.2⟩
  | .setLimit _ => []

/-- The limit that an edit sets. -/
def Edit.limit? : Edit → Option (Option Nat)
  | .setLimit limit => some limit
  | _ => none

/-- The reply to an edit and the environment after it. An extension and a new limit have nothing to
reply. -/
def edit (env : Environment) : Edit → Except ParseError (Option Term) × Environment
  | .insert name term =>
    let (previous, next) := env.getThenInsert? name term
    (.ok previous, next)
  | .define name text =>
    match env.define name text with
    | .ok (previous, next) => (.ok previous, next)
    | .error cause => (.error cause, env)
  | .remove name =>
    let (previous, next) := env.getThenErase? name
    (.ok previous, next)
  | .extend other => (.ok none, env.extend other)
  | .setLimit limit => (.ok none, env.withLimit limit)

def afterEdits (env : Environment) (edits : List Edit) : Environment :=
  edits.foldl (fun env edit => (env.edit edit).2) env

variable {env : Environment} {log : List Change} {change : Change} {name text : String}
  {term : Term} {time : Nat}

theorem afterEdits_cons (env : Environment) (edit : Edit) (rest : List Edit) :
    env.afterEdits (edit :: rest) = (env.edit edit).2.afterEdits rest :=
  rfl

theorem edit_define_of_parse (parsed : Term.parse text = .ok term) (env : Environment)
    (name : String) : env.edit (.define name text) = env.edit (.insert name term) := by
  simp only [edit, define_of_parse parsed]
  rfl

theorem edit_define_of_error {cause : ParseError} (fails : Term.parse text = .error cause)
    (env : Environment) (name : String) :
    env.edit (.define name text) = (.error (.inDefinition name cause), env) := by
  rw [edit, define, fails]

/-! ## What a log says -/

/-- Whatever term the name was given, it was removed afterwards. -/
def Cleared (log : List Change) (name : String) : Prop :=
  ∀ time term, log[time]? = some ⟨name, some term⟩ → ⟨name, none⟩ ∈ log.drop time

/-- The name was given the term, and nothing happened to it afterwards. -/
def Stands (log : List Change) (name : String) (term : Term) : Prop :=
  ∃ time, log[time]? = some ⟨name, some term⟩ ∧
    ∀ change ∈ log.drop (time + 1), change.name ≠ name

/-- The name was given a term at that time, it had none before, and it was not removed
afterwards. -/
structure Arrived (log : List Change) (name : String) (time : Nat) : Prop where
  given : ∃ term, log[time]? = some ⟨name, some term⟩
  new : Cleared (log.take time) name
  kept : ⟨name, none⟩ ∉ log.drop time

theorem Arrived.unique {time' : Nat} (h : Arrived log name time) (h' : Arrived log name time') :
    time = time' := by
  -- whoever comes in later finds the name removed, against what the earlier arrival says
  have noLater : ∀ {p q}, Arrived log name p → Arrived log name q → ¬ p < q := by
    intro p q hp hq before
    obtain ⟨term, given⟩ := hp.given
    have given' : (log.take q)[p]? = some ⟨name, some term⟩ := by
      rw [List.getElem?_take_of_lt before, given]
    have removed := hq.new p term given'
    rw [List.drop_take] at removed
    exact hp.kept (List.mem_of_mem_take removed)
  exact Nat.le_antisymm (Nat.not_lt.mp (noLater h' h)) (Nat.not_lt.mp (noLater h h'))

/-! ## One change more -/

theorem getElem?_concat_eq_some {last : Change} :
    (log ++ [last])[time]? = some change ↔
      log[time]? = some change ∨ time = log.length ∧ last = change := by
  rw [List.getElem?_append]
  split
  · rename_i within
    exact ⟨.inl, fun found => found.resolve_right fun atEnd => Nat.ne_of_lt within atEnd.1⟩
  · rename_i beyond
    have none : log[time]? = none := List.getElem?_eq_none (Nat.not_lt.mp beyond)
    rw [List.getElem?_singleton, none]
    constructor
    · intro found
      split at found
      · exact .inr ⟨by omega, Option.some.inj found⟩
      · cases found
    · rintro (found | ⟨rfl, rfl⟩)
      · cases found
      · rw [Nat.sub_self, if_pos rfl]

theorem mem_drop_concat {last : Change} (within : time ≤ log.length) :
    change ∈ (log ++ [last]).drop time ↔ change ∈ log.drop time ∨ change = last := by
  rw [List.drop_append_of_le_length within, List.mem_append, List.mem_singleton]

theorem lt_of_getElem?_eq_some (found : log[time]? = some change) : time < log.length :=
  (List.getElem?_eq_some_iff.mp found).1

theorem le_of_getElem?_eq_some (found : log[time]? = some change) : time ≤ log.length :=
  Nat.le_of_lt (lt_of_getElem?_eq_some found)

theorem cleared_concat :
    Cleared (log ++ [change]) name ↔
      change = ⟨name, none⟩ ∨ change.name ≠ name ∧ Cleared log name := by
  constructor
  · intro h
    by_cases here : change.name = name
    · obtain ⟨_, _ | term⟩ := change
      · exact .inl (by rw [← here])
      · have removed := h log.length term (getElem?_concat_eq_some.mpr (.inr ⟨rfl, by rw [← here]⟩))
        rw [List.drop_left, List.mem_singleton] at removed
        cases removed
    · refine .inr ⟨here, fun time term given => ?_⟩
      have removed := h time term (getElem?_concat_eq_some.mpr (.inl given))
      rw [mem_drop_concat (le_of_getElem?_eq_some given)] at removed
      exact removed.resolve_right fun same => here (by rw [← same])
  · intro h time term given
    rcases getElem?_concat_eq_some.mp given with given | ⟨-, same⟩
    · rw [mem_drop_concat (le_of_getElem?_eq_some given)]
      exact h.symm.imp (fun other => other.2 time term given) Eq.symm
    · rcases h with removal | ⟨other, -⟩
      · cases same.symm.trans removal
      · exact absurd (by rw [same]) other

theorem stands_concat :
    Stands (log ++ [change]) name term ↔
      change = ⟨name, some term⟩ ∨ change.name ≠ name ∧ Stands log name term := by
  constructor
  · rintro ⟨time, given, alone⟩
    rcases getElem?_concat_eq_some.mp given with given | ⟨-, same⟩
    · simp only [mem_drop_concat (lt_of_getElem?_eq_some given)] at alone
      exact .inr ⟨alone change (.inr rfl), time, given, fun later mem => alone later (.inl mem)⟩
    · exact .inl same
  · rintro (same | ⟨other, time, given, alone⟩)
    · refine ⟨log.length, getElem?_concat_eq_some.mpr (.inr ⟨rfl, same⟩), ?_⟩
      have nothing : (log ++ [change]).drop (log.length + 1) = [] :=
        List.drop_of_length_le (Nat.le_of_eq List.length_append)
      rw [nothing]
      exact fun _ mem => nomatch mem
    · refine ⟨time, getElem?_concat_eq_some.mpr (.inl given), fun later mem => ?_⟩
      rw [mem_drop_concat (lt_of_getElem?_eq_some given)] at mem
      rcases mem with mem | rfl
      · exact alone later mem
      · exact other

theorem arrived_concat :
    Arrived (log ++ [change]) name time ↔
      Arrived log name time ∧ change ≠ ⟨name, none⟩ ∨
        time = log.length ∧ Cleared log name ∧ ∃ term, change = ⟨name, some term⟩ := by
  constructor
  · rintro ⟨⟨term, given⟩, new, kept⟩
    rcases getElem?_concat_eq_some.mp given with given | ⟨rfl, same⟩
    · have within := le_of_getElem?_eq_some given
      rw [List.take_append_of_le_length within] at new
      rw [mem_drop_concat within, not_or] at kept
      exact .inl ⟨⟨⟨term, given⟩, new, kept.1⟩, Ne.symm kept.2⟩
    · rw [List.take_left] at new
      exact .inr ⟨rfl, new, term, same⟩
  · rintro (⟨⟨⟨term, given⟩, new, kept⟩, other⟩ | ⟨rfl, new, term, rfl⟩)
    · have within := le_of_getElem?_eq_some given
      refine ⟨⟨term, getElem?_concat_eq_some.mpr (.inl given)⟩, ?_, ?_⟩
      · rwa [List.take_append_of_le_length within]
      · rw [mem_drop_concat within, not_or]
        exact ⟨kept, Ne.symm other⟩
    · refine ⟨⟨term, getElem?_concat_eq_some.mpr (.inr ⟨rfl, rfl⟩)⟩, ?_, ?_⟩
      · rwa [List.take_left]
      · rw [List.drop_left, List.mem_singleton]
        exact fun same => nomatch same

/-- A name that is there has come in at some time. -/
theorem exists_arrived_iff : (∃ time, Arrived log name time) ↔ ¬ Cleared log name := by
  induction log using List.reverseRecOn with
  | nil =>
    refine iff_of_false ?_ fun h => h fun time term given => ?_
    · rintro ⟨time, ⟨term, given⟩, -, -⟩
      cases given
    · cases given
  | append_singleton log change ih =>
    have added : (∃ time, Arrived (log ++ [change]) name time) ↔
        ¬ Cleared log name ∧ change ≠ ⟨name, none⟩ ∨
          Cleared log name ∧ ∃ term, change = ⟨name, some term⟩ := by
      simp only [arrived_concat, exists_or, exists_and_right, exists_eq, true_and, ih]
    rw [added, cleared_concat]
    obtain ⟨changed, _ | term⟩ := change
    · by_cases here : changed = name
      · simp [here]
      · simp [here]
    · by_cases here : changed = name
      · simp [here, em']
      · simp [here]

/-! ## The names after a change -/

theorem mem_names_iff : name ∈ env.names ↔ env.get? name ≠ none := by
  rw [get?, Ne, List.lookup_eq_none_iff, names, List.mem_map]
  simp [@eq_comm _ name]

theorem names_insert_of_mem (known : name ∈ env.names) (term : Term) :
    (env.insert name term).names = env.names :=
  keys_putEntry_of_mem known term

theorem names_insert_of_notMem (absent : name ∉ env.names) (term : Term) :
    (env.insert name term).names = env.names ++ [name] := by
  have added : (env.insert name term).entries = env.entries ++ [(name, term)] :=
    putEntry_of_notMem absent
  rw [names, added, List.map_append]
  rfl

theorem names_erase (env : Environment) (name : String) :
    (env.erase name).names = env.names.filter (· ≠ name) := by
  rw [names, names, List.filter_map]
  rfl

/-! ## The environment that a log records -/

/-- The definitions are those that stand in the log, in the order in which their names came in. -/
structure Records (env : Environment) (log : List Change) : Prop where
  latest : ∀ name term, env.get? name = some term ↔ Stands log name term
  missing : ∀ name, env.get? name = none ↔ Cleared log name
  inOrder : env.names.Pairwise fun name name' =>
    ∀ time time', Arrived log name time → Arrived log name' time' → time < time'

theorem records_empty : Records empty [] where
  latest := fun _ _ => iff_of_false nofun nofun
  missing := fun _ => iff_of_true rfl nofun
  inOrder := List.Pairwise.nil

theorem Records.mem_names (h : env.Records log) :
    name ∈ env.names ↔ ∃ time, Arrived log name time := by
  rw [mem_names_iff, Ne, h.missing, exists_arrived_iff]

/-- The environment after one change more. -/
def record (env : Environment) (change : Change) : Environment :=
  match change.term? with
  | some term => env.insert change.name term
  | none => env.erase change.name

theorem get?_record (env : Environment) (change : Change) (name : String) :
    (env.record change).get? name = if name = change.name then change.term? else env.get? name := by
  obtain ⟨changed, _ | term⟩ := change
  · exact get?_erase env changed name
  · exact get?_insert env changed name term

theorem Records.record (h : env.Records log) (change : Change) :
    (env.record change).Records (log ++ [change]) where
  latest name term := by
    rw [get?_record, stands_concat, ← h.latest]
    obtain ⟨changed, term?⟩ := change
    by_cases here : name = changed
    · simp [here]
    · simp [here, Ne.symm here]
  missing name := by
    rw [get?_record, cleared_concat, ← h.missing]
    obtain ⟨changed, term?⟩ := change
    by_cases here : name = changed
    · simp [here]
    · simp [here, Ne.symm here]
  inOrder := by
    -- a name that was there has not come in by this change, so the old order is still right
    have old : ∀ {name time}, name ∈ env.names → Arrived (log ++ [change]) name time →
        Arrived log name time := by
      intro name time known arrived
      rcases arrived_concat.mp arrived with ⟨before, -⟩ | ⟨-, cleared, -⟩
      · exact before
      · exact absurd cleared (exists_arrived_iff.mp (h.mem_names.mp known))
    have ofOld : ∀ {names : List String}, names.Sublist env.names → names.Pairwise fun name name' =>
        ∀ time time', Arrived (log ++ [change]) name time →
          Arrived (log ++ [change]) name' time' → time < time' := by
      intro names sub
      exact (h.inOrder.sublist sub).imp_of_mem
        fun mem mem' before time time' arrived arrived' =>
          before time time' (old (sub.subset mem) arrived) (old (sub.subset mem') arrived')
    obtain ⟨changed, _ | term⟩ := change
    · have kept : (env.erase changed).names.Sublist env.names := by
        rw [names_erase]
        exact List.filter_sublist
      exact ofOld kept
    · change (env.insert changed term).names.Pairwise _
      by_cases known : changed ∈ env.names
      · rw [names_insert_of_mem known]
        exact ofOld (List.Sublist.refl _)
      · rw [names_insert_of_notMem known, List.pairwise_append]
        refine ⟨ofOld (List.Sublist.refl _), List.pairwise_singleton _ _, ?_⟩
        intro name mem name' last time time' arrived arrived'
        obtain rfl := List.mem_singleton.mp last
        obtain ⟨given, found⟩ := (old mem arrived).given
        rcases arrived_concat.mp arrived' with ⟨before, -⟩ | ⟨rfl, -, -⟩
        · exact absurd (h.mem_names.mpr ⟨_, before⟩) known
        · exact lt_of_getElem?_eq_some found

theorem Records.insertAll (h : env.Records log) (entries : List (String × Term)) :
    (env.insertAll entries).Records (log ++ entries.map fun entry => ⟨entry.1, some entry.2⟩) := by
  induction entries generalizing env log with
  | nil =>
    rw [List.map_nil, List.append_nil]
    exact h
  | cons entry rest ih =>
    rw [insertAll_cons, List.map_cons, List.append_cons]
    exact ih (h.record ⟨entry.1, some entry.2⟩)

theorem Records.edit (h : env.Records log) (edit : Edit) :
    (env.edit edit).2.Records (log ++ edit.changes) := by
  cases edit with
  | insert name term => exact h.record ⟨name, some term⟩
  | define name text =>
    cases parsed : Term.parse text with
    | ok term =>
      rw [edit_define_of_parse parsed, Edit.changes, parsed]
      exact h.record ⟨name, some term⟩
    | error cause =>
      rw [edit_define_of_error parsed, Edit.changes, parsed, List.append_nil]
      exact h
  | remove name => exact h.record ⟨name, none⟩
  | extend other => exact h.insertAll other.entries
  | setLimit limit =>
    rw [Edit.changes, List.append_nil]
    exact ⟨h.latest, h.missing, h.inOrder⟩

theorem Records.afterEdits (h : env.Records log) (edits : List Edit) :
    (env.afterEdits edits).Records (log ++ edits.flatMap Edit.changes) := by
  induction edits generalizing env log with
  | nil =>
    rw [List.flatMap_nil, List.append_nil]
    exact h
  | cons edit rest ih =>
    rw [afterEdits_cons, List.flatMap_cons, ← List.append_assoc]
    exact ih (h.edit edit)

/-! ## The limit -/

theorem numeralLimit_edit (env : Environment) (edit : Edit) :
    (env.edit edit).2.numeralLimit = edit.limit?.getD env.numeralLimit := by
  cases edit with
  | insert name term => rfl
  | define name text =>
    cases parsed : Term.parse text with
    | ok term =>
      rw [edit_define_of_parse parsed]
      rfl
    | error cause =>
      rw [edit_define_of_error parsed]
      rfl
  | remove name => rfl
  | extend other => exact numeralLimit_insertAll env other.entries
  | setLimit limit => rfl

theorem numeralLimit_afterEdits (env : Environment) (edits : List Edit) :
    (env.afterEdits edits).numeralLimit =
      (edits.filterMap Edit.limit?).getLast?.getD env.numeralLimit := by
  induction edits generalizing env with
  | nil => rfl
  | cons edit rest ih =>
    rw [afterEdits_cons, ih, numeralLimit_edit]
    cases set : edit.limit? with
    | none => rw [List.filterMap_cons_none set, Option.getD_none]
    | some limit =>
      rw [List.filterMap_cons_some set, List.getLast?_cons, Option.getD_some, Option.getD_some]

theorem extend_eq_afterEdits (env other : Environment) :
    env.extend other = env.afterEdits (other.entries.map fun entry => .insert entry.1 entry.2) := by
  rw [afterEdits, List.foldl_map]
  rfl

/-- **An environment is an ordered map.** Whatever edits it went through, each name is there once,
with the last term it was given since it was last removed, if there is one. The names stand in the
order in which they came in. The limit is the one set last. An insertion, a definition and a removal
reply with the term the name had; giving a name another term leaves the names as they are, and
removing one leaves the others as they are. A definition that cannot be parsed changes nothing, and
an extension does what the insertion of each of its entries does. -/
theorem edits_follow_log (edits : List Edit) :
    let env := empty.afterEdits edits
    let log := edits.flatMap Edit.changes
    (env.names.Nodup ∧ env.Records log ∧
      (∀ name, name ∈ env.names ↔ ∃! time, Arrived log name time)) ∧
    (env.numeralLimit = (edits.filterMap Edit.limit?).getLast?.getD none ∧
      ∀ edit : Edit, edit.limit? = none → (env.edit edit).2.numeralLimit = env.numeralLimit) ∧
    (∀ name term, (env.edit (.insert name term)).1 = .ok (env.get? name) ∧
      (name ∈ env.names → (env.edit (.insert name term)).2.names = env.names)) ∧
    (∀ name, (env.edit (.remove name)).1 = .ok (env.get? name) ∧
      (env.edit (.remove name)).2.names = env.names.filter (· ≠ name)) ∧
    (∀ name text,
      (∃ term, Term.parse text = .ok term ∧
        env.edit (.define name text) = env.edit (.insert name term)) ∨
      ∃ cause, Term.parse text = .error cause ∧
        env.edit (.define name text) = (.error (.inDefinition name cause), env)) ∧
    ∀ other : Environment, (env.edit (.extend other)).2 =
      env.afterEdits (other.entries.map fun entry => .insert entry.1 entry.2) := by
  intro env log
  have recorded : env.Records log := records_empty.afterEdits edits
  refine ⟨⟨env.nodup_keys, recorded, fun name => ?_⟩,
    ⟨numeralLimit_afterEdits empty edits, fun edit unset => ?_⟩,
    fun name term => ⟨rfl, fun known => names_insert_of_mem known term⟩,
    fun name => ⟨rfl, names_erase env name⟩, fun name text => ?_, extend_eq_afterEdits env⟩
  · rw [recorded.mem_names]
    constructor
    · rintro ⟨time, arrived⟩
      exact ⟨time, arrived, fun time' arrived' => arrived'.unique arrived⟩
    · exact ExistsUnique.exists
  · rw [numeralLimit_edit, unset, Option.getD_none]
  · cases parsed : Term.parse text with
    | ok term => exact .inl ⟨term, rfl, edit_define_of_parse parsed env name⟩
    | error cause => exact .inr ⟨cause, rfl, edit_define_of_error parsed env name⟩

/-- The name `a` is given another term, removed and added again, so that it comes after `c`. The
extension finds `b` in its place, and the definition of `c` as an empty list fails. -/
theorem edits_follow_log_readded :
    let edits : List Edit := [.insert "a" (.free "x"), .define "b" "x y", .insert "a" (.free "z"),
      .remove "a", .define "c" "λv.v", .insert "a" (.free "w"), .define "c" "()",
      .extend ((empty.insert "b" (.free "u")).insert "d" (.free "a")), .setLimit (some 3)]
    let env := empty.afterEdits edits
    let log := edits.flatMap Edit.changes
    env.names = ["b", "c", "a", "d"] ∧ Stands log "a" (.free "w") ∧
      Stands log "c" (.lam "v" (.var "v" 1)) ∧ (∃! time, Arrived log "a" time) ∧ Cleared log "e" ∧
      env.numeralLimit = some 3 ∧ (env.edit (.insert "c" (.free "x"))).2.names = env.names ∧
      (env.edit (.insert "c" (.free "x"))).2.numeralLimit = some 3 ∧
      (env.edit (.define "c" "()")).2 = env := by
  intro edits env log
  obtain ⟨⟨-, recorded, listed⟩, ⟨limit, keepsLimit⟩, insertions, -, definitions, -⟩ :=
    edits_follow_log edits
  have names : env.names = ["b", "c", "a", "d"] := by decide +kernel
  have limited : env.numeralLimit = some 3 := limit
  refine ⟨names, (recorded.latest _ _).mp (by decide +kernel),
    (recorded.latest _ _).mp (by decide +kernel), (listed "a").mp ?_,
    (recorded.missing _).mp (by decide +kernel), limited, (insertions "c" _).2 ?_,
    (keepsLimit _ rfl).trans limited, ?_⟩
  · change "a" ∈ env.names
    rw [names]
    decide
  · change "c" ∈ env.names
    rw [names]
    decide
  · have fails : Term.parse "()" = .error .emptyExpression := by decide +kernel
    obtain ⟨term, parsed, -⟩ | ⟨cause, -, eq⟩ := definitions "c" "()"
    · cases parsed.symm.trans fails
    · change ((empty.afterEdits edits).edit (.define "c" "()")).2 = empty.afterEdits edits
      rw [eq]

end Environment

end LambdaWorkbench
