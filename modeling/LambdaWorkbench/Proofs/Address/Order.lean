import LambdaWorkbench.Address.Basic

/-! # The order of addresses

Of two different addresses one is above the other, or they part at some step and one goes to the
left there. The order of addresses puts what is above first, and otherwise what is on the left.
-/

namespace LambdaWorkbench

instance : Std.Asymm (α := Step) (· < ·) :=
  ⟨fun a b less => Nat.lt_asymm (show a.rank < b.rank from less)⟩

instance : Std.Irrefl (α := Step) (· < ·) :=
  ⟨fun a => Nat.lt_irrefl a.rank⟩

instance : Trans (α := Step) (· < ·) (· < ·) (· < ·) :=
  ⟨fun {a b _} less less' => Nat.lt_trans (show a.rank < b.rank from less) less'⟩

theorem Step.lt_or_eq_or_gt (a b : Step) : a < b ∨ a = b ∨ b < a := by
  cases a <;> cases b <;> decide

namespace Address

/-- The first address leads to a node around the one that the second leads to. -/
def Above (upper lower : Address) : Prop :=
  upper <+: lower ∧ upper ≠ lower

/-- The two addresses part at some step, where the first takes the lesser one. -/
def LeftOf (left right : Address) : Prop :=
  ∃ common step step', step < step' ∧ common ++ [step] <+: left ∧ common ++ [step'] <+: right

variable {a b c : Address} {step step' : Step}

theorem above_cons : Above (step :: a) (step' :: b) ↔ step = step' ∧ Above a b := by
  simp only [Above, List.cons_prefix_cons, ne_eq, List.cons.injEq, not_and]
  constructor
  · rintro ⟨⟨same, start⟩, other⟩
    exact ⟨same, start, other same⟩
  · rintro ⟨same, start, other⟩
    exact ⟨⟨same, start⟩, fun _ => other⟩

theorem nil_above_cons (step : Step) (rest : Address) : Above [] (step :: rest) :=
  ⟨List.nil_prefix, nofun⟩

theorem not_above_nil (a : Address) : ¬ Above a [] :=
  fun ⟨start, other⟩ => other (List.prefix_nil.mp start)

theorem not_above_self (a : Address) : ¬ Above a a :=
  fun above => above.2 rfl

theorem Above.trans (h : Above a b) (h' : Above b c) : Above a c := by
  refine ⟨h.1.trans h'.1, ?_⟩
  rintro rfl
  exact h.2 (h.1.eq_of_length_le h'.1.length_le)

theorem leftOf_of_lt (h : step < step') (a b : Address) : LeftOf (step :: a) (step' :: b) :=
  ⟨[], step, step', h, List.prefix_append [step] a, List.prefix_append [step'] b⟩

theorem leftOf_cons :
    LeftOf (step :: a) (step' :: b) ↔ step < step' ∨ step = step' ∧ LeftOf a b := by
  constructor
  · rintro ⟨common, first, second, less, left, right⟩
    cases common with
    | nil =>
      obtain ⟨rfl, -⟩ := List.cons_prefix_cons.mp left
      obtain ⟨rfl, -⟩ := List.cons_prefix_cons.mp right
      exact .inl less
    | cons shared common =>
      obtain ⟨rfl, left'⟩ := List.cons_prefix_cons.mp left
      obtain ⟨rfl, right'⟩ := List.cons_prefix_cons.mp right
      exact .inr ⟨rfl, common, first, second, less, left', right'⟩
  · rintro (less | ⟨rfl, common, first, second, less, left, right⟩)
    · exact leftOf_of_lt less a b
    · exact ⟨step :: common, first, second, less, List.cons_prefix_cons.mpr ⟨rfl, left⟩,
        List.cons_prefix_cons.mpr ⟨rfl, right⟩⟩

theorem leftOf_cons_self : LeftOf (step :: a) (step :: b) ↔ LeftOf a b := by
  simp [leftOf_cons, Std.Irrefl.irrefl step]

theorem not_nil_leftOf (a : Address) : ¬ LeftOf [] a :=
  fun ⟨_, _, _, _, left, _⟩ => List.concat_ne_nil _ _ (List.prefix_nil.mp left)

theorem not_leftOf_nil (a : Address) : ¬ LeftOf a [] :=
  fun ⟨_, _, _, _, _, right⟩ => List.concat_ne_nil _ _ (List.prefix_nil.mp right)

/-- What is above comes first, and otherwise what is on the left. -/
theorem lt_iff : a < b ↔ Above a b ∨ LeftOf a b := by
  induction a generalizing b with
  | nil =>
    cases b with
    | nil => simp [not_above_self, not_nil_leftOf]
    | cons step rest => simp [nil_above_cons]
  | cons step upper ih =>
    cases b with
    | nil => simp [not_above_nil, not_leftOf_nil]
    | cons step' lower =>
      rw [List.cons_lt_cons_iff, above_cons, leftOf_cons, ih]
      grind

theorem Above.lt (h : Above a b) : a < b :=
  lt_iff.mpr (.inl h)

theorem LeftOf.lt (h : LeftOf a b) : a < b :=
  lt_iff.mpr (.inr h)

theorem LeftOf.asymm (h : LeftOf a b) : ¬ LeftOf b a :=
  fun h' => List.lt_asymm h.lt h'.lt

/-- Addresses that part lead to nodes outside each other. -/
theorem LeftOf.not_above (h : LeftOf a b) : ¬ Above a b := by
  rintro ⟨start, -⟩
  obtain ⟨common, step, step', less, left, right⟩ := h
  have same : common ++ [step] = common ++ [step'] := by
    refine List.IsPrefix.eq_of_length ?_ (by simp)
    exact List.prefix_of_prefix_length_le (left.trans start) right (by simp)
  obtain rfl := List.singleton_inj.mp (List.append_cancel_left same)
  exact Std.Irrefl.irrefl step less

theorem LeftOf.not_below (h : LeftOf a b) : ¬ Above b a :=
  fun below => List.lt_asymm h.lt below.lt

theorem eq_or_above_or_leftOf (a b : Address) :
    a = b ∨ Above a b ∨ Above b a ∨ LeftOf a b ∨ LeftOf b a := by
  induction a generalizing b with
  | nil =>
    cases b with
    | nil => exact .inl rfl
    | cons step rest => exact .inr (.inl (nil_above_cons step rest))
  | cons step upper ih =>
    cases b with
    | nil => exact .inr (.inr (.inl (nil_above_cons step upper)))
    | cons step' lower =>
      rw [above_cons, above_cons, leftOf_cons, leftOf_cons, List.cons.injEq]
      have steps := step.lt_or_eq_or_gt step'
      have rest := ih lower
      grind

end Address

end LambdaWorkbench
