import LambdaWorkbench.Term.OfSexpr

/-! # Ways to write one term

The items of a list are taken from left to right, so the first of them may be put into a list of
their own. A lambda takes the rest of its list, so it may be put into parentheses with that rest.
And parameters may be given at once or by one lambda after another. The different spellings of a
term agree on what is at fault as well, since the same parts are read in the same order.
-/

namespace LambdaWorkbench.Term

variable {scope : List String} {front : List Sexpr}

theorem startsLambda_eq_false {item : Sexpr} (other : item ≠ .atom lambdaWord) :
    startsLambda item = false := by
  cases item with
  | atom name =>
    have differ : name ≠ lambdaWord := fun same => other (congrArg Sexpr.atom same)
    exact beq_eq_false_iff_ne.mpr differ
  | list items => rfl

/-! ## One item -/

section OneItem

variable {item : Sexpr}

theorem ofItems_cons_eq (notWord : startsLambda item = false) (rest : List Sexpr) :
    ofItems scope (item :: rest) =
      (ofSexpr scope item).bind fun func => applyItems scope func rest := by
  rw [ofItems, if_neg (by simp [notWord])]
  rfl

theorem applyItems_cons_eq (notWord : startsLambda item = false) (func : Term)
    (rest : List Sexpr) :
    applyItems scope func (item :: rest) =
      (ofSexpr scope item).bind fun arg => applyItems scope (app func arg) rest := by
  rw [applyItems, if_neg (by simp [notWord])]
  rfl

end OneItem

theorem ofItems_lambda (items : List Sexpr) :
    ofItems scope (.atom lambdaWord :: items) = ofLambda scope items := by
  rw [ofItems, if_pos (by simp [startsLambda])]

theorem applyItems_lambda (func : Term) (items : List Sexpr) :
    applyItems scope func (.atom lambdaWord :: items) = (ofLambda scope items).map (app func) := by
  rw [applyItems, if_pos (by simp [startsLambda])]
  rfl

/-! ## Items in groups -/

/-- Arguments can be taken in two goes. -/
theorem applyItems_append (wordless : .atom lambdaWord ∉ front) (func : Term)
    (back : List Sexpr) :
    applyItems scope func (front ++ back) =
      (applyItems scope func front).bind fun func => applyItems scope func back := by
  induction front generalizing func with
  | nil =>
    rw [List.nil_append, applyItems]
    rfl
  | cons item rest ih =>
    rw [List.mem_cons, not_or] at wordless
    obtain ⟨other, later⟩ := wordless
    have notWord := startsLambda_eq_false (Ne.symm other)
    rw [List.cons_append, applyItems_cons_eq notWord, applyItems_cons_eq notWord]
    cases ofSexpr scope item with
    | error fault => rfl
    | ok arg => exact ih later (app func arg)

theorem ofItems_append (nonempty : front ≠ []) (wordless : .atom lambdaWord ∉ front)
    (back : List Sexpr) :
    ofItems scope (front ++ back) =
      (ofItems scope front).bind fun func => applyItems scope func back := by
  obtain ⟨item, rest, rfl⟩ := List.exists_cons_of_ne_nil nonempty
  rw [List.mem_cons, not_or] at wordless
  obtain ⟨other, later⟩ := wordless
  have notWord := startsLambda_eq_false (Ne.symm other)
  rw [List.cons_append, ofItems_cons_eq notWord, ofItems_cons_eq notWord]
  cases ofSexpr scope item with
  | error fault => rfl
  | ok func => exact applyItems_append later func back

/-- A list at the head of a list stands for the items in it. -/
theorem ofItems_group (nonempty : front ≠ []) (wordless : .atom lambdaWord ∉ front)
    (back : List Sexpr) :
    ofItems scope (.list front :: back) = ofItems scope (front ++ back) := by
  rw [ofItems_append nonempty wordless, ofItems_cons_eq rfl, ofSexpr]

/-- A list of one item stands for the item. -/
theorem ofItems_list (items : List Sexpr) : ofItems scope [.list items] = ofItems scope items := by
  rw [ofItems_cons_eq rfl, ofSexpr]
  cases ofItems scope items <;> simp only [Except.bind, applyItems]

theorem applyItems_list (func : Term) (items : List Sexpr) :
    applyItems scope func [.list items] = (ofItems scope items).map (app func) := by
  rw [applyItems_cons_eq rfl, ofSexpr]
  cases ofItems scope items <;> simp only [Except.bind, Except.map, applyItems]

/-- A lambda may be put into parentheses with all that follows it. -/
theorem ofItems_append_lambda (wordless : .atom lambdaWord ∉ front) (rest : List Sexpr) :
    ofItems scope (front ++ .atom lambdaWord :: rest) =
      ofItems scope (front ++ [.list (.atom lambdaWord :: rest)]) := by
  cases front with
  | nil => rw [List.nil_append, List.nil_append, ofItems_list]
  | cons item others =>
    have same (func : Term) : applyItems scope func (.atom lambdaWord :: rest) =
        applyItems scope func [.list (.atom lambdaWord :: rest)] := by
      rw [applyItems_lambda, applyItems_list, ofItems_lambda]
    rw [ofItems_append (List.cons_ne_nil item others) wordless,
      ofItems_append (List.cons_ne_nil item others) wordless]
    simp only [same]

/-! ## Parameters -/

theorem paramNames_append (front back : List Sexpr) :
    paramNames (front ++ back) = (paramNames front).bind fun first =>
      (paramNames back).map fun second => first ++ second := by
  induction front with
  | nil =>
    rw [List.nil_append, paramNames]
    cases paramNames back <;> rfl
  | cons item rest ih =>
    cases item with
    | list items => rfl
    | atom name =>
      rw [List.cons_append, paramNames, paramNames, ih]
      cases paramNames rest with
      | error fault => rfl
      | ok first => cases paramNames back <;> rfl

theorem lams_append (front back : List String) (body : Term) :
    lams (front ++ back) body = lams front (lams back body) :=
  List.foldr_append

theorem ofLambda_eq {params : List Sexpr} (nonempty : params ≠ []) (body : List Sexpr) :
    ofLambda scope (.list params :: body) = (paramNames params).bind fun names =>
      (ofItems (names.reverse ++ scope) body).map (lams names) := by
  obtain ⟨first, others, rfl⟩ := List.exists_cons_of_ne_nil nonempty
  rw [ofLambda]
  rfl

/-- A lambda with many parameters stands for lambdas inside one another. -/
theorem ofLambda_append {back : List Sexpr} (nonempty : front ≠ []) (nonempty' : back ≠ [])
    (body : List Sexpr) :
    ofLambda scope (.list (front ++ back) :: body) =
      ofLambda scope (.list front :: .atom lambdaWord :: .list back :: body) := by
  rw [ofLambda_eq (List.append_ne_nil_of_left_ne_nil nonempty back), ofLambda_eq nonempty,
    paramNames_append]
  cases paramNames front with
  | error fault => rfl
  | ok first =>
    show ((paramNames back).map _).bind _ = (ofItems _ _).map _
    rw [ofItems_lambda, ofLambda_eq nonempty']
    cases paramNames back with
    | error fault => rfl
    | ok second =>
      show (ofItems _ body).map _ = ((ofItems _ body).map _).map _
      rw [List.reverse_append, List.append_assoc]
      cases ofItems (second.reverse ++ (first.reverse ++ scope)) body with
      | error fault => rfl
      | ok inner => exact congrArg Except.ok (lams_append first second inner)

/-- **Groups make no difference.** In every scope, whether or not the text is at fault, a list
reads the same with its first items in a list of their own, with its last lambda in parentheses, and
with the parameters of a lambda given by two lambdas. -/
theorem spellings_agree (scope : List String) :
    (∀ front back : List Sexpr, front ≠ [] → Sexpr.atom lambdaWord ∉ front →
      ofSexpr scope (.list (front ++ back)) = ofSexpr scope (.list (.list front :: back))) ∧
    (∀ front rest : List Sexpr, Sexpr.atom lambdaWord ∉ front →
      ofSexpr scope (.list (front ++ .atom lambdaWord :: rest)) =
        ofSexpr scope (.list (front ++ [.list (.atom lambdaWord :: rest)]))) ∧
    ∀ front back body : List Sexpr, front ≠ [] → back ≠ [] →
      ofSexpr scope (.list (.atom lambdaWord :: .list (front ++ back) :: body)) =
        ofSexpr scope
          (.list (.atom lambdaWord :: .list front :: .atom lambdaWord :: .list back :: body)) := by
  refine ⟨?_, ?_, ?_⟩
  · intro front back nonempty wordless
    rw [ofSexpr, ofSexpr, ofItems_group nonempty wordless]
  · intro front rest wordless
    rw [ofSexpr, ofSexpr, ofItems_append_lambda wordless]
  · intro front back body nonempty nonempty'
    rw [ofSexpr, ofSexpr, ofItems_lambda, ofItems_lambda, ofLambda_append nonempty nonempty']

/-- Below a lambda for `y`: a group at the head of a list, a lambda late in it, and a list among the
parameters, which is at fault. -/
theorem spellings_agree_nested :
    let word : Sexpr := .atom lambdaWord
    let front : List Sexpr := [.atom "y", .list [word, .list [.atom "y"], .atom "y"]]
    let params : List Sexpr := [.atom "y", .list [.atom "x"]]
    let more : List Sexpr := [.list []]
    let abstraction : List Sexpr := [.list [.atom "x"], .atom "y"]
    let t : Term := app (var "y" 1) (lam "y" (var "y" 1))
    front ≠ [] ∧ word ∉ front ∧ params ≠ [] ∧ more ≠ [] ∧
      ofSexpr ["y"] (.list (front ++ [.atom "x"])) = .ok (app t (free "x")) ∧
      ofSexpr ["y"] (.list [.list front, .atom "x"]) = .ok (app t (free "x")) ∧
      ofSexpr ["y"] (.list (front ++ word :: abstraction)) = .ok (app t (lam "x" (var "y" 2))) ∧
      ofSexpr ["y"] (.list (front ++ [.list (word :: abstraction)])) =
        .ok (app t (lam "x" (var "y" 2))) ∧
      ofSexpr ["y"] (.list [word, .list (params ++ more), .atom "y"]) =
        .error (.invalidParameter "(x)") ∧
      ofSexpr ["y"] (.list [word, .list params, word, .list more, .atom "y"]) =
        .error (.invalidParameter "(x)") := by
  intro word front params more abstraction t
  have wordless : word ∉ front := by simp [word, front, lambdaWord]
  have nonempty : front ≠ [] := List.cons_ne_nil _ _
  have nonempty' : params ≠ [] := List.cons_ne_nil _ _
  have nonempty'' : more ≠ [] := List.cons_ne_nil _ _
  obtain ⟨grouped, parenthesized, curried⟩ := spellings_agree ["y"]
  have head := grouped front [.atom "x"] nonempty wordless
  have last := parenthesized front abstraction wordless
  have nested := curried params more [.atom "y"] nonempty' nonempty''
  exact ⟨nonempty, wordless, nonempty', nonempty'', rfl, head.symm.trans rfl, rfl,
    last.symm.trans rfl, rfl, nested.symm.trans rfl⟩

end LambdaWorkbench.Term
