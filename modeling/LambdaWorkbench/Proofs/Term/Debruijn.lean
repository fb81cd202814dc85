import LambdaWorkbench.Proofs.Sexpr.Expansion
import LambdaWorkbench.Proofs.Term.AlphaEquivalence
import LambdaWorkbench.Proofs.Text.Numerals
import LambdaWorkbench.Term.Render

/-! # Terms by their distances

The notation by distances has parentheses around an abstraction only where it is applied, and
nothing but a dot before a body. It can still be read in one way only: a lambda sign starts an
abstraction, a parenthesis an application or an applied abstraction, and anything else is a number
or a name that goes on to the next blank, parenthesis or end. So the text tells the reading, as long
as no free name looks like a number or an abstraction.
-/

namespace LambdaWorkbench

open Text

namespace Nameless

/-- A name that the notation by distances shows for what it is. -/
structure Unmistakable (name : String) : Prop where
  nonempty : name.toList ≠ []
  atomic : ∀ c ∈ name.toList, isAtomChar c = true
  notLambda : name.toList.head? ≠ some 'λ'
  notNumber : ∃ c ∈ name.toList, c.isDigit = false

/-! ## A reader for what is printed -/

/-- The variable that is written as `text`. -/
def ofWord (text : String) : Nameless :=
  match naturalValue? text with
  | some distance => .bound distance
  | none => .free text

/-- Reads a term back, and gives what follows it. The text is taken to be printed, with at most
`fuel` characters for the term. -/
def readBack : Nat → List Char → Nameless × List Char
  | 0, cs => (.free "", cs)
  | fuel + 1, 'λ' :: cs =>
    let body := readBack fuel cs.tail
    (.lam body.1, body.2)
  | fuel + 1, '(' :: cs =>
    let first := readBack fuel cs
    if first.2.head? = some ')' then (first.1, first.2.tail)
    else
      let second := readBack fuel first.2.tail
      (.app first.1 second.1, second.2.tail)
  | _ + 1, cs => (ofWord (String.ofList (cs.takeWhile isAtomChar)), cs.dropWhile isAtomChar)

variable {r s : Nameless} {cs run rest : List Char} {fuel : Nat}

theorem readBack_lambda (eq : readBack fuel cs = (r, rest)) :
    readBack (fuel + 1) ('λ' :: '.' :: cs) = (.lam r, rest) := by
  rw [readBack, List.tail_cons, eq]

theorem readBack_group (eq : readBack fuel cs = (r, ')' :: rest)) :
    readBack (fuel + 1) ('(' :: cs) = (r, rest) := by
  simp [readBack, eq]

theorem readBack_apply {cs' : List Char} (first : readBack fuel cs = (r, ' ' :: cs'))
    (second : readBack fuel cs' = (s, ')' :: rest)) :
    readBack (fuel + 1) ('(' :: cs) = (.app r s, rest) := by
  simp [readBack, first, second]

/-- A word ends where a text starts apart. -/
theorem readBack_word (nonempty : run ≠ []) (atomic : ∀ c ∈ run, isAtomChar c = true)
    (notLambda : run.head? ≠ some 'λ') (apart : StartsApart rest) (fuel : Nat) :
    readBack (fuel + 1) (run ++ rest) = (ofWord (String.ofList run), rest) := by
  have stop : rest.takeWhile isAtomChar = [] ∧ rest.dropWhile isAtomChar = rest := by
    cases rest with
    | nil => exact ⟨rfl, rfl⟩
    | cons c rest =>
      have other := startsApart_cons.mp apart
      exact ⟨List.takeWhile_cons_of_neg (by simp [other]),
        List.dropWhile_cons_of_neg (by simp [other])⟩
  have starts : ∀ c cs, run ++ rest = c :: cs → c ≠ 'λ' ∧ c ≠ '(' := by
    obtain ⟨first, run, rfl⟩ := List.exists_cons_of_ne_nil nonempty
    rintro c cs whole
    obtain ⟨rfl, -⟩ := List.cons.inj whole
    refine ⟨fun lambda => notLambda (congrArg some lambda), ?_⟩
    rintro rfl
    exact absurd (atomic '(' List.mem_cons_self) (by decide)
  rw [readBack]
  · rw [List.takeWhile_append_of_pos atomic, List.dropWhile_append_of_pos atomic, stop.1, stop.2,
      List.append_nil]
  · intro cs whole
    exact (starts _ cs whole).1 rfl
  · intro cs whole
    exact (starts _ cs whole).2 rfl

/-! ## Reading back what is printed -/

theorem ofWord_toString (distance : Nat) : ofWord (toString distance) = .bound distance := by
  rw [ofWord, naturalValue?_toString]

theorem Unmistakable.ofWord_eq {name : String} (h : Unmistakable name) :
    ofWord name = .free name := by
  have none : naturalValue? name = Option.none := by
    refine Option.eq_none_iff_forall_ne_some.mpr fun value spelled => ?_
    obtain ⟨c, mem, other⟩ := h.notNumber
    rw [(naturalValue?_eq_some_iff.mp spelled).digits c mem] at other
    cases other
  rw [ofWord, none]

theorem readBack_toString (distance : Nat) (apart : StartsApart rest) (fuel : Nat) :
    readBack (fuel + 1) ((toString distance).toList ++ rest) = (.bound distance, rest) := by
  have named : ∀ c ∈ (toString distance).toList, Shorthand.isNameChar c = true :=
    fun c mem => Shorthand.isNameChar_of_isDigit ((digits_toString distance).digits c mem)
  have notLambda : (toString distance).toList.head? ≠ some 'λ' := by
    intro first
    exact absurd (named 'λ' (List.mem_of_mem_head? first)) (by decide)
  rw [readBack_word (by simp)
    (fun c mem => Shorthand.isAtomChar_of_isNameChar (named c mem)) notLambda apart,
    String.ofList_toList, ofWord_toString]

theorem Unmistakable.readBack_eq {name : String} (h : Unmistakable name) (apart : StartsApart rest)
    (fuel : Nat) : readBack (fuel + 1) (name.toList ++ rest) = (.free name, rest) := by
  rw [readBack_word h.nonempty h.atomic h.notLambda apart, String.ofList_toList, h.ofWord_eq]

theorem exists_succ_of_enough (nonempty : cs ≠ []) (enough : cs.length ≤ fuel) :
    ∃ fuel', fuel = fuel' + 1 :=
  Nat.exists_eq_succ_of_ne_zero (Nat.ne_of_gt
    (Nat.lt_of_lt_of_le (List.length_pos_iff.mpr nonempty) enough))

/-- What is printed is read back, whatever starts apart after it. -/
theorem readBack_render (shown : ∀ name ∈ r.freeNames, Unmistakable name) (applied : Bool)
    (apart : StartsApart rest) (enough : (r.render applied).toList.length ≤ fuel) :
    readBack fuel ((r.render applied).toList ++ rest) = (r, rest) := by
  have closes : ∀ {cs}, StartsApart (')' :: cs) := startsApart_cons.mpr (by decide)
  have space : ∀ {cs}, StartsApart (' ' :: cs) := startsApart_cons.mpr (by decide)
  induction r generalizing applied rest fuel with
  | bound distance =>
    obtain ⟨fuel, rfl⟩ := exists_succ_of_enough (by simp [render]) enough
    exact readBack_toString distance apart fuel
  | free name =>
    have unmistakable := shown name (List.mem_singleton.mpr rfl)
    obtain ⟨fuel, rfl⟩ := exists_succ_of_enough unmistakable.nonempty enough
    exact unmistakable.readBack_eq apart fuel
  | lam body ih =>
    cases applied with
    | false =>
      have whole : ((lam body).render false).toList = 'λ' :: '.' :: (body.render false).toList := by
        simp [render]
      rw [whole] at enough ⊢
      obtain ⟨fuel, rfl⟩ := exists_succ_of_enough (List.cons_ne_nil _ _) enough
      simp only [List.length_cons] at enough
      exact readBack_lambda (ih shown false apart (by omega))
    | true =>
      have whole : ((lam body).render true).toList =
          '(' :: 'λ' :: '.' :: ((body.render false).toList ++ [')']) := by
        simp [render]
      rw [whole] at enough ⊢
      obtain ⟨fuel, rfl⟩ := exists_succ_of_enough (List.cons_ne_nil _ _) enough
      simp only [List.length_cons, List.length_append] at enough
      obtain ⟨fuel, rfl⟩ : ∃ fuel', fuel = fuel' + 1 := ⟨fuel - 1, by omega⟩
      have inside : readBack fuel ((body.render false).toList ++ ')' :: rest) =
          (body, ')' :: rest) := ih shown false closes (by omega)
      simpa using readBack_group (readBack_lambda inside)
  | app func arg ihf iha =>
    have whole : ((app func arg).render applied).toList =
        '(' :: ((func.render true).toList ++ ' ' :: ((arg.render false).toList ++ [')'])) := by
      simp [render]
    rw [freeNames, List.forall_mem_append] at shown
    rw [whole] at enough ⊢
    obtain ⟨fuel, rfl⟩ := exists_succ_of_enough (List.cons_ne_nil _ _) enough
    simp only [List.length_cons, List.length_append] at enough
    have second : readBack fuel ((arg.render false).toList ++ ')' :: rest) = (arg, ')' :: rest) :=
      iha shown.2 false closes (by omega)
    have first : readBack fuel ((func.render true).toList ++
        ' ' :: ((arg.render false).toList ++ ')' :: rest)) =
        (func, ' ' :: ((arg.render false).toList ++ ')' :: rest)) :=
      ihf shown.1 true space (by omega)
    simpa using readBack_apply first second

/-- Readings whose free names show are told apart by their texts. -/
theorem eq_of_render_eq (hr : ∀ name ∈ r.freeNames, Unmistakable name)
    (hs : ∀ name ∈ s.freeNames, Unmistakable name) (same : r.render false = s.render false) :
    r = s := by
  have first := readBack_render hr false startsApart_nil (Nat.le_refl _)
  have second := readBack_render hs false startsApart_nil (Nat.le_refl _)
  rw [same] at first
  exact congrArg Prod.fst (first.symm.trans second)

end Nameless

namespace Term

/-- **Texts by distances stand for terms up to names.** Terms that are equal up to the names of
parameters are printed by the same text. Conversely, if no free name of two terms is empty, holds a
blank or a parenthesis, starts with the lambda sign or is a number, then the two are equal up to the
names of parameters when their texts are the same. -/
theorem debruijn_text_iff_alphaEq :
    (∀ t u : Term, t.alphaEq u = true → t.render .debruijn = u.render .debruijn) ∧
    ∀ t u : Term, (∀ name ∈ t.freeVars, Nameless.Unmistakable name) →
      (∀ name ∈ u.freeVars, Nameless.Unmistakable name) →
      (t.render .debruijn = u.render .debruijn ↔ t.alphaEq u = true) := by
  have same : ∀ t u : Term, t.alphaEq u = true → t.render .debruijn = u.render .debruijn :=
    fun t u h => congrArg (Nameless.render false) (alphaEq_iff_nameless.mp h)
  refine ⟨same, fun t u ht hu => ⟨fun text => ?_, same t u⟩⟩
  rw [← freeNames_nameless] at ht hu
  exact alphaEq_iff_nameless.mpr (Nameless.eq_of_render_eq ht hu text)

/-- Parameters may be called like numbers or lambda signs, and a free name may hold these. -/
theorem debruijn_text_iff_alphaEq_odd :
    let t : Term := app (lam "1" (app (var "1" 1) (free "2λ."))) (lam "" (lam "2" (var "" 2)))
    let u : Term := app (lam "λ" (app (var "λ" 7) (free "2λ."))) (lam "x" (lam "(" (var "x" 0)))
    Nameless.Unmistakable "2λ." ∧ t.freeVars = ["2λ."] ∧ u.freeVars = ["2λ."] ∧
      t.render .debruijn = "((λ.(1 2λ.)) λ.λ.2)" ∧ t.render .debruijn = u.render .debruijn ∧
      t.alphaEq u = true := by
  intro t u
  have shown : Nameless.Unmistakable "2λ." :=
    ⟨by decide, List.all_eq_true.mp (by decide), by decide, 'λ', by decide, by decide⟩
  have ht : t.freeVars = ["2λ."] := by decide +kernel
  have hu : u.freeVars = ["2λ."] := by decide +kernel
  have text : t.render .debruijn = u.render .debruijn := by decide +kernel
  obtain ⟨-, iff⟩ := debruijn_text_iff_alphaEq
  have same : t.alphaEq u = true := by
    refine (iff t u ?_ ?_).mp text
    · rw [ht]
      simpa using shown
    · rw [hu]
      simpa using shown
  exact ⟨shown, ht, hu, by decide +kernel, text, same⟩

/-- A free name that is a number passes for a bound variable. -/
example : (lam "x" (free "1")).render .debruijn = (lam "x" (var "x" 1)).render .debruijn := by
  decide +kernel

end Term

end LambdaWorkbench
