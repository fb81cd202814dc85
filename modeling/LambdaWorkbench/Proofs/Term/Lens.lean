import LambdaWorkbench.Proofs.Nameless.Independence
import LambdaWorkbench.Proofs.Term.Path

/-! # Addresses as lenses

An address leads to a place in a term, or one of its steps is the first that does not fit. Around a
place the term is a function of what stands there: what fills the hole is found in it, and a
replacement fills it anew. Two places that are apart are two holes of one term, so nothing done at
one of them shows at the other.
-/

namespace LambdaWorkbench.Term

variable {t sub sub' new : Term} {a b : Address} {binders binders' : List String} {position : Nat}

/-! ## Paths one after the other -/

theorem Path.append (h : Path t a binders sub) (h' : Path sub b binders' sub') :
    Path t (a ++ b) (binders ++ binders') sub' := by
  induction h with
  | root t => exact h'
  | func _ ih => exact .func (ih h')
  | body _ ih => exact .body (ih h')
  | arg _ ih => exact .arg (ih h')

/-- Behind a path, the steps on it count. -/
theorem Path.misfit_append (h : Path t a binders sub) (h' : Misfit sub b position) :
    Misfit t (a ++ b) (a.length + position) := by
  induction h with
  | root t => rwa [List.nil_append, List.length_nil, Nat.zero_add]
  | func _ ih => rw [List.length_cons, Nat.add_right_comm]; exact .func (ih h')
  | body _ ih => rw [List.length_cons, Nat.add_right_comm]; exact .body (ih h')
  | arg _ ih => rw [List.length_cons, Nat.add_right_comm]; exact .arg (ih h')

/-! ## Holes -/

/-- A term with a hole at an address, below lambdas with these parameters. What fills the hole is
found there, and a replacement there fills the hole anew. -/
structure Hole (fill : Term → Term) (address : Address) (binders : List String) : Prop where
  path (sub : Term) : Path (fill sub) address binders sub
  refill (sub new : Term) (depth : Nat) : replaceFrom new depth address (fill sub) = .ok (fill new)

theorem hole_root : Hole id [] [] where
  path := .root
  refill _ _ _ := rfl

section Around

variable {fill : Term → Term}

theorem Hole.func (h : Hole fill a binders) (arg : Term) :
    Hole (fun sub => app (fill sub) arg) (.func :: a) binders where
  path sub := .func (h.path sub)
  refill sub new depth := by rw [replaceFrom, h.refill]; rfl

theorem Hole.body (h : Hole fill a binders) (param : String) :
    Hole (fun sub => lam param (fill sub)) (.body :: a) (param :: binders) where
  path sub := .body (h.path sub)
  refill sub new depth := by rw [replaceFrom, h.refill]; rfl

theorem Hole.arg (h : Hole fill a binders) (func : Term) :
    Hole (fun sub => app func (fill sub)) (.arg :: a) binders where
  path sub := .arg (h.path sub)
  refill sub new depth := by rw [replaceFrom, h.refill]; rfl

theorem Hole.replaceAt_eq (h : Hole fill a binders) (sub new : Term) :
    (fill sub).replaceAt a new = .ok (fill new) := by
  rw [replaceAt, h.refill]
  rfl

end Around

/-- Around the end of a path there is a hole. -/
theorem Path.exists_hole (h : Path t a binders sub) :
    ∃ fill, fill sub = t ∧ Hole fill a binders := by
  induction h with
  | root t => exact ⟨id, rfl, hole_root⟩
  | @func _ arg _ _ _ _ ih =>
    obtain ⟨fill, rfl, hole⟩ := ih
    exact ⟨_, rfl, hole.func arg⟩
  | @body param _ _ _ _ _ ih =>
    obtain ⟨fill, rfl, hole⟩ := ih
    exact ⟨_, rfl, hole.body param⟩
  | @arg func _ _ _ _ _ ih =>
    obtain ⟨fill, rfl, hole⟩ := ih
    exact ⟨_, rfl, hole.arg func⟩

/-- Around the ends of two paths that are apart there are two holes, and either can be filled
whatever fills the other one. -/
theorem Path.exists_holes (h : Path t a binders sub) (h' : Path t b binders' sub')
    (apart : a.Apart b) :
    ∃ fill : Term → Term → Term, fill sub sub' = t ∧
      (∀ other, Hole (fill · other) a binders) ∧ ∀ other, Hole (fill other) b binders' := by
  induction h generalizing b binders' with
  | root t => exact absurd apart (Address.not_nil_apart b)
  | @func _ arg _ _ _ path ih =>
    cases h' with
    | root t => exact absurd apart (Address.not_apart_nil _)
    | func path' =>
      obtain ⟨fill, rfl, hole, hole'⟩ := ih path' apart.of_cons
      exact ⟨fun new new' => app (fill new new') arg, rfl,
        fun other => (hole other).func arg, fun other => (hole' other).func arg⟩
    | arg path' =>
      obtain ⟨fill, rfl, hole⟩ := path.exists_hole
      obtain ⟨fill', rfl, hole'⟩ := path'.exists_hole
      exact ⟨fun new new' => app (fill new) (fill' new'), rfl,
        fun other => hole.func (fill' other), fun other => hole'.arg (fill other)⟩
  | @body param _ _ _ _ _ ih =>
    cases h' with
    | root t => exact absurd apart (Address.not_apart_nil _)
    | body path' =>
      obtain ⟨fill, rfl, hole, hole'⟩ := ih path' apart.of_cons
      exact ⟨fun new new' => lam param (fill new new'), rfl,
        fun other => (hole other).body param, fun other => (hole' other).body param⟩
  | @arg func _ _ _ _ path ih =>
    cases h' with
    | root t => exact absurd apart (Address.not_apart_nil _)
    | func path' =>
      obtain ⟨fill, rfl, hole⟩ := path.exists_hole
      obtain ⟨fill', rfl, hole'⟩ := path'.exists_hole
      exact ⟨fun new new' => app (fill' new') (fill new), rfl,
        fun other => hole.arg (fill' other), fun other => hole'.func (fill other)⟩
    | arg path' =>
      obtain ⟨fill, rfl, hole, hole'⟩ := ih path' apart.of_cons
      exact ⟨fun new new' => app func (fill new new'), rfl,
        fun other => (hole other).arg func, fun other => (hole' other).arg func⟩

/-! ## Laws -/

/-- A replacement leaves its new part at its place, puts back what was there, and is forgotten
after another one at the same place. -/
theorem Path.replace_laws (h : Path t a binders sub) (new new' : Term) :
    ∃ u, t.replaceAt a new = .ok u ∧ u.subterm a = .ok new ∧ t.replaceAt a sub = .ok t ∧
      u.replaceAt a new' = t.replaceAt a new' := by
  obtain ⟨fill, rfl, hole⟩ := h.exists_hole
  exact ⟨fill new, hole.replaceAt_eq sub new, (hole.path new).subterm_eq,
    hole.replaceAt_eq sub sub, by rw [hole.replaceAt_eq, hole.replaceAt_eq]⟩

/-- A replacement does not show at a place apart from its own, and two of them change places. -/
theorem Path.replace_apart (h : Path t a binders sub) (h' : Path t b binders' sub')
    (apart : a.Apart b) (new new' : Term) :
    ∃ u v w, t.replaceAt a new = .ok u ∧ u.subterm b = t.subterm b ∧
      u.bindersAlong b = t.bindersAlong b ∧ t.replaceAt b new' = .ok v ∧
      u.replaceAt b new' = .ok w ∧ v.replaceAt a new = .ok w := by
  obtain ⟨fill, rfl, hole, hole'⟩ := h.exists_holes h' apart
  have kept : Path (fill new sub') b binders' sub' := (hole' new).path sub'
  exact ⟨fill new sub', fill sub new', fill new new', (hole sub').replaceAt_eq sub new,
    kept.subterm_eq.trans h'.subterm_eq.symm, kept.bindersAlong_eq.trans h'.bindersAlong_eq.symm,
    (hole' sub).replaceAt_eq sub' new', (hole' new).replaceAt_eq sub' new',
    (hole new').replaceAt_eq sub new⟩

/-- Below a place, an address leads on from there. Where it does not fit, the steps to the place
count as well. -/
theorem Path.subterm_append (h : Path t a binders sub) (b : Address) :
    (∃ s, sub.subterm b = .ok s ∧ t.subterm (a ++ b) = .ok s) ∨
      ∃ position, sub.subterm b = .error (.mismatch b position) ∧
        t.subterm (a ++ b) = .error (.mismatch (a ++ b) (a.length + position)) := by
  obtain ⟨_, s, path⟩ | ⟨position, misfit⟩ := path_or_misfit sub b
  · exact .inl ⟨s, path.subterm_eq, (h.append path).subterm_eq⟩
  · exact .inr ⟨position, misfit.subterm_eq, (h.misfit_append misfit).subterm_eq⟩

/-- **Addresses are lenses.** The three walks along an address succeed together, or fail together
with the position of the first step that does not fit. What is put in a place is found there, to
put back what is there changes nothing, and the last of several replacements counts. Places that
are apart do not see each other, and a place below a place is a place of the whole term. -/
theorem addresses_are_lenses (t n m : Term) (a b : Address) :
    ((∃ sub binders u, t.subterm a = .ok sub ∧ t.bindersAlong a = .ok binders ∧
        t.replaceAt a n = .ok u ∧ u.subterm a = .ok n ∧ t.replaceAt a sub = .ok t ∧
        u.replaceAt a m = t.replaceAt a m) ∨
      ∃ position, t.Misfit a position ∧ t.subterm a = .error (.mismatch a position) ∧
        t.bindersAlong a = .error (.mismatch a position) ∧
        t.replaceAt a n = .error (.mismatch a position)) ∧
    (∀ sub sub', a.Apart b → t.subterm a = .ok sub → t.subterm b = .ok sub' →
      ∃ u v w, t.replaceAt a n = .ok u ∧ u.subterm b = t.subterm b ∧
        u.bindersAlong b = t.bindersAlong b ∧ t.replaceAt b m = .ok v ∧
        u.replaceAt b m = .ok w ∧ v.replaceAt a n = .ok w) ∧
    ∀ sub, t.subterm a = .ok sub →
      (∃ s, sub.subterm b = .ok s ∧ t.subterm (a ++ b) = .ok s) ∨
        ∃ position, sub.subterm b = .error (.mismatch b position) ∧
          t.subterm (a ++ b) = .error (.mismatch (a ++ b) (a.length + position)) := by
  refine ⟨?_, ?_, ?_⟩
  · obtain ⟨binders, sub, path⟩ | ⟨position, misfit⟩ := path_or_misfit t a
    · obtain ⟨u, replaced, laws⟩ := path.replace_laws n m
      exact .inl ⟨sub, binders, u, path.subterm_eq, path.bindersAlong_eq, replaced, laws⟩
    · exact .inr ⟨position, misfit, misfit.subterm_eq, misfit.bindersAlong_eq,
        misfit.replaceAt_eq n⟩
  · intro sub sub' apart found found'
    obtain ⟨binders, path⟩ := Path.of_subterm found
    obtain ⟨binders', path'⟩ := Path.of_subterm found'
    exact path.replace_apart path' apart n m
  · intro sub found
    obtain ⟨binders, path⟩ := Path.of_subterm found
    exact path.subterm_append b

/-- In `(λx.(x y)) z` the places of `x` and `y` are apart, and no step leads on from `y`. -/
theorem addresses_are_lenses_below :
    let within (func arg : Term) : Term := app (lam "x" (app func arg)) (free "z")
    let t : Term := within (var "x" 1) (free "y")
    let a : Address := [.func, .body, .arg]
    let b : Address := [.func, .body, .func]
    a.Apart b ∧ t.subterm a = .ok (free "y") ∧ t.subterm b = .ok (var "x" 1) ∧
      (∃ u v w, t.replaceAt a (free "x") = .ok u ∧ u = within (var "x" 1) (free "x") ∧
        u.subterm b = .ok (var "x" 1) ∧ u.bindersAlong b = .ok ["x"] ∧
        t.replaceAt b (church 0) = .ok v ∧ v = within (church 0) (free "y") ∧
        u.replaceAt b (church 0) = .ok w ∧ w = within (church 0) (free "x") ∧
        v.replaceAt a (free "x") = .ok w) ∧
      (free "y").subterm b = .error (.mismatch b 0) ∧
      t.subterm (a ++ b) = .error (.mismatch (a ++ b) 3) := by
  intro within t a b
  have apart : a.Apart b := by
    unfold Address.Apart
    decide
  have found : t.subterm a = .ok (free "y") := rfl
  have found' : t.subterm b = .ok (var "x" 1) := rfl
  obtain ⟨-, beside, inside⟩ := addresses_are_lenses t (free "x") (church 0) a b
  obtain ⟨u, v, w, first, kept, crossed, second, both, both'⟩ := beside _ _ apart found found'
  obtain ⟨s, leads, -⟩ | ⟨position, misfit, whole⟩ := inside _ found
  · cases leads
  · cases misfit
    cases first
    cases second
    cases both
    exact ⟨apart, found, found', ⟨_, _, _, rfl, rfl, kept, crossed, rfl, rfl, rfl, rfl, both'⟩,
      rfl, whole⟩

end LambdaWorkbench.Term
