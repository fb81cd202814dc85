import LambdaWorkbench.Address.Text

/-! # Addresses and their texts

An address reads back from its text, so no two addresses share one. Any text is an address exactly
if it is blank, the word `root`, or made of step names between slashes; otherwise the first piece
that is no step name is the fault.
-/

namespace LambdaWorkbench

namespace Text

variable {text : String}

theorem trim_eq_self (inked : ∀ c ∈ text.toList, isBlank c = false) : trim text = text := by
  have kept : ∀ run : List Char, (∀ c ∈ run, isBlank c = false) → run.dropWhile isBlank = run := by
    intro run inked
    cases run with
    | nil => rfl
    | cons c rest => rw [List.dropWhile_cons_of_neg (by simp [inked c])]
  rw [trim, trimChars, kept _ inked, kept _ (by simpa using inked), List.reverse_reverse,
    String.ofList_toList]

theorem pieces_eq_splitOn (separator : Char) (cs : List Char) :
    pieces separator cs = cs.splitOn separator := by
  induction cs with
  | nil => rfl
  | cons c rest ih =>
    obtain ⟨piece, others, eq⟩ := List.exists_cons_of_ne_nil (List.splitOn_ne_nil separator rest)
    have later : rest.splitOnP (· == separator) = piece :: others := eq
    rw [pieces, ih, eq, List.splitOn, List.splitOnP_cons_eq_if_modifyHead, later]
    simp only [beq_iff_eq, List.modifyHead_cons]

theorem forall_mem_intercalate {p : Char → Prop} {separator : List Char} {parts : List (List Char)}
    (between : ∀ c ∈ separator, p c) (each : ∀ part ∈ parts, ∀ c ∈ part, p c) :
    ∀ c ∈ separator.intercalate parts, p c := by
  induction parts with
  | nil => exact nofun
  | cons part others ih =>
    obtain ⟨here, later⟩ := List.forall_mem_cons.mp each
    cases others with
    | nil => simpa using here
    | cons next others =>
      rw [List.intercalate_cons_cons, List.forall_mem_append, List.forall_mem_append]
      exact ⟨⟨here, between⟩, ih later⟩

end Text

namespace Step

/-- A text is the name of a step or of none. -/
theorem ofName_cases (text : String) :
    (∃ step : Step, text = step.name) ∨
      (∀ step : Step, text ≠ step.name) ∧ ofName text = .error (.unknownStep text) := by
  rw [ofName]
  cases found : [func, body, arg].find? (·.name == text) with
  | some step =>
    have same := List.find?_some found
    exact .inl ⟨step, (beq_iff_eq.mp same).symm⟩
  | none =>
    refine .inr ⟨?_, rfl⟩
    rintro step rfl
    have other := List.find?_eq_none.mp found step (by cases step <;> decide)
    exact other (beq_self_eq_true step.name)

/-- A step name holds no blank character and no slash. -/
theorem plain_of_mem_name {c : Char} (step : Step) (mem : c ∈ step.name.toList) :
    Text.isBlank c = false ∧ c ≠ '/' := by
  have each : step.name.toList.all (fun c => !Text.isBlank c && c != '/') = true := by
    cases step <;> decide
  simpa using List.all_eq_true.mp each c mem

end Step

namespace Address

variable {text bad : String} {address : Address}

/-- The pieces of a text between slashes. Blank characters around the text and around each piece do
not count. -/
def words (text : String) : List String :=
  ((Text.trim text).toList.splitOn '/').map fun piece => Text.trim (String.ofList piece)

/-- Whether a text is the spelling of the empty address, or blank. -/
def SaysRoot (text : String) : Prop :=
  Text.trim text = "" ∨ Text.trim text = "root"

/-! ## Lists of step names -/

theorem mapM_ofName (steps : Address) : (steps.map Step.name).mapM Step.ofName = .ok steps := by
  induction steps with
  | nil => rfl
  | cons step rest ih =>
    rw [List.map_cons, List.mapM_cons, Step.ofName_name, ih]
    rfl

theorem mapM_ofName_unknown (unknown : ∀ step : Step, bad ≠ step.name) (steps : Address)
    (rest : List String) :
    (steps.map Step.name ++ bad :: rest).mapM Step.ofName = .error (.unknownStep bad) := by
  induction steps with
  | nil =>
    obtain ⟨step, same⟩ | ⟨-, fails⟩ := Step.ofName_cases bad
    · exact absurd same (unknown step)
    · rw [List.map_nil, List.nil_append, List.mapM_cons, fails]
      rfl
  | cons step others ih =>
    rw [List.map_cons, List.cons_append, List.mapM_cons, Step.ofName_name, ih]
    rfl

/-- All words name steps, or there is a first that does not. -/
theorem named_or_first_unknown (words : List String) :
    (∃ steps : Address, words = steps.map Step.name) ∨
      ∃ (steps : Address) (bad : String) (rest : List String),
        words = steps.map Step.name ++ bad :: rest ∧ ∀ step : Step, bad ≠ step.name := by
  induction words with
  | nil => exact .inl ⟨[], rfl⟩
  | cons word others ih =>
    obtain ⟨step, rfl⟩ | ⟨unknown, -⟩ := Step.ofName_cases word
    · obtain ⟨steps, rfl⟩ | ⟨steps, bad, rest, rfl, unknown⟩ := ih
      · exact .inl ⟨step :: steps, rfl⟩
      · exact .inr ⟨step :: steps, bad, rest, rfl, unknown⟩
    · exact .inr ⟨[], word, others, rfl, unknown⟩

/-! ## Reading -/

theorem parse_of_saysRoot (h : SaysRoot text) : parse text = .ok root := by
  rw [SaysRoot] at h
  simp only [parse, if_pos h]

theorem parse_of_not_saysRoot (h : ¬ SaysRoot text) :
    parse text = (words text).mapM Step.ofName := by
  rw [SaysRoot] at h
  simp only [parse, if_neg h]
  simp only [words, List.mapM_map, Text.pieces_eq_splitOn, Text.trim, String.toList_ofList,
    Function.comp_def]

/-- Such a text is one word, which names no step. -/
theorem words_ne_of_saysRoot (h : SaysRoot text) (steps : Address) :
    words text ≠ steps.map Step.name := by
  have single : ∃ word, words text = [word] ∧ ∀ step : Step, word ≠ step.name := by
    rcases h with blank | named
    · exact ⟨"", by rw [words, blank]; decide, fun step => by cases step <;> decide⟩
    · exact ⟨"root", by rw [words, named]; decide, fun step => by cases step <;> decide⟩
  obtain ⟨word, eq, unknown⟩ := single
  rw [eq]
  intro same
  obtain ⟨step, -, named⟩ := List.mem_map.mp (same ▸ List.mem_singleton_self word)
  exact unknown step named.symm

theorem parse_eq_ok_iff :
    parse text = .ok address ↔
      SaysRoot text ∧ address = root ∨ words text = address.map Step.name := by
  constructor
  · intro h
    by_cases empty : SaysRoot text
    · rw [parse_of_saysRoot empty] at h
      exact .inl ⟨empty, (Except.ok.inj h).symm⟩
    · rw [parse_of_not_saysRoot empty] at h
      obtain ⟨steps, eq⟩ | ⟨steps, bad, rest, eq, unknown⟩ := named_or_first_unknown (words text)
      · rw [eq, mapM_ofName] at h
        rw [eq, Except.ok.inj h]
        exact .inr rfl
      · rw [eq, mapM_ofName_unknown unknown] at h
        cases h
  · rintro (⟨empty, rfl⟩ | eq)
    · exact parse_of_saysRoot empty
    · have other : ¬ SaysRoot text := fun empty => words_ne_of_saysRoot empty address eq
      rw [parse_of_not_saysRoot other, eq, mapM_ofName]

theorem parse_eq_error_iff {fault : AddressError} :
    parse text = .error fault ↔
      ¬ SaysRoot text ∧ ∃ (steps : Address) (bad : String) (rest : List String),
        words text = steps.map Step.name ++ bad :: rest ∧ (∀ step : Step, bad ≠ step.name) ∧
          fault = .unknownStep bad := by
  constructor
  · intro h
    have other : ¬ SaysRoot text := by
      intro empty
      rw [parse_of_saysRoot empty] at h
      cases h
    rw [parse_of_not_saysRoot other] at h
    obtain ⟨steps, eq⟩ | ⟨steps, bad, rest, eq, unknown⟩ := named_or_first_unknown (words text)
    · rw [eq, mapM_ofName] at h
      cases h
    · rw [eq, mapM_ofName_unknown unknown] at h
      exact ⟨other, steps, bad, rest, eq, unknown, (Except.error.inj h).symm⟩
  · rintro ⟨other, steps, bad, rest, eq, unknown, rfl⟩
    rw [parse_of_not_saysRoot other, eq, mapM_ofName_unknown unknown]

/-! ## Writing -/

theorem toList_render (nonempty : address ≠ []) :
    address.render.toList = ['/'].intercalate (address.map (·.name.toList)) := by
  obtain ⟨step, rest, rfl⟩ := List.exists_cons_of_ne_nil nonempty
  have written : render (step :: rest) = "/".intercalate ((step :: rest).map Step.name) := rfl
  rw [written, String.toList_intercalate, List.map_map]
  rfl

theorem isBlank_of_mem_render (nonempty : address ≠ []) :
    ∀ c ∈ address.render.toList, Text.isBlank c = false := by
  rw [toList_render nonempty]
  refine Text.forall_mem_intercalate (List.forall_mem_singleton.mpr (by decide)) ?_
  rw [List.forall_mem_map]
  exact fun step _ c mem => (step.plain_of_mem_name mem).1

/-- Neither the slashes nor the ends of a text leave a trace in the words of a written address. -/
theorem words_render (nonempty : address ≠ []) : words address.render = address.map Step.name := by
  have slashless : ∀ name ∈ address.map (·.name.toList), '/' ∉ name := by
    rw [List.forall_mem_map]
    exact fun step _ mem => (step.plain_of_mem_name mem).2 rfl
  rw [words, Text.trim_eq_self (isBlank_of_mem_render nonempty), toList_render nonempty,
    List.splitOn_intercalate '/' slashless (by simpa using nonempty), List.map_map]
  refine List.map_congr_left fun step _ => ?_
  rw [Function.comp_apply, String.ofList_toList]
  exact Text.trim_eq_self fun c mem => (step.plain_of_mem_name mem).1

theorem parse_render (address : Address) : parse address.render = .ok address := by
  cases address with
  | nil => exact parse_of_saysRoot (.inr (by decide))
  | cons step rest => exact parse_eq_ok_iff.mpr (.inr (words_render (List.cons_ne_nil step rest)))

/-- **Addresses survive their text form.** An address reads back from its text, so different
addresses have different texts, and only the empty one is written `root`. A text is read exactly if
it is `root` or blank, which is the empty address, or all its words name steps, which are those of
the address in their order. Otherwise the first word that names no step is the fault. -/
theorem text_form_exact :
    (∀ address : Address, parse address.render = .ok address) ∧
    (∀ a b : Address, a ≠ b → a.render ≠ b.render) ∧
    (∀ address : Address, address ≠ [] → address.render ≠ "root") ∧
    ∀ text,
      (∀ address, parse text = .ok address ↔
        SaysRoot text ∧ address = root ∨ words text = address.map Step.name) ∧
      ∀ fault, parse text = .error fault ↔
        ¬ SaysRoot text ∧ ∃ (steps : Address) (bad : String) (rest : List String),
          words text = steps.map Step.name ++ bad :: rest ∧ (∀ step : Step, bad ≠ step.name) ∧
            fault = .unknownStep bad := by
  have apart : ∀ a b : Address, a ≠ b → a.render ≠ b.render := by
    intro a b differ same
    have parsed := parse_render a
    rw [same, parse_render b] at parsed
    exact differ (Except.ok.inj parsed).symm
  exact ⟨parse_render, apart, fun address nonempty => apart address [] nonempty,
    fun text => ⟨fun _ => parse_eq_ok_iff, fun _ => parse_eq_error_iff⟩⟩

/-- Blank characters may stand around the text and around each slash, and the second word of the
last text is empty. -/
theorem text_form_exact_blank :
    let address : Address := [.func, .body, .arg]
    address ≠ [] ∧ parse address.render = .ok address ∧ address.render ≠ "root" ∧
      address.render ≠ render [.func, .arg] ∧
      parse "\u3000func-side /body/\targ-side\n" = .ok address ∧ parse " root " = .ok root ∧
      parse "body//left" = .error (.unknownStep "") := by
  intro address
  have nonempty : address ≠ [] := List.cons_ne_nil _ _
  obtain ⟨again, apart, notRoot, exact⟩ := text_form_exact
  refine ⟨nonempty, again address, notRoot address nonempty, apart address _ (by decide), ?_, ?_, ?_⟩
  · exact ((exact _).1 address).mpr (.inr (by decide))
  · exact ((exact _).1 root).mpr (.inl ⟨.inr (by decide), rfl⟩)
  · refine ((exact _).2 _).mpr ⟨?_, [.body], "", ["left"], by decide, ?_, rfl⟩
    · rw [SaysRoot]
      decide
    · intro step
      cases step <;> decide

end Address

end LambdaWorkbench
