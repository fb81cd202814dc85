import Mathlib.Data.List.Chain
import LambdaWorkbench.Proofs.Sexpr.Reading
import LambdaWorkbench.Proofs.Text.Slices

/-! # How the tokens lie in a text

A text is its tokens and the blank characters around them. No token is empty, so the tokens lie one
after the other, and an atom goes on as far as it can, so two atoms have a blank character between
them.
-/

namespace LambdaWorkbench.Token

open Text

variable {c : Char} {cs front rest : List Char} {offset : Nat} {token : Token}
  {items later : List (Nat × Token)}

/-- A text that can stand for an atom. -/
structure Atomic (name : String) : Prop where
  nonempty : name.toList ≠ []
  inked : ∀ c ∈ name.toList, isAtomChar c = true

/-- A token whose text can stand for it. -/
def Spelled : Token → Prop
  | atom name => Atomic name
  | _ => True

def isAtom : Token → Bool
  | atom _ => true
  | _ => false

/-- The byte position after a token. -/
def stop (item : Nat × Token) : Nat :=
  item.1 + byteLength item.2.text.toList

/-- The byte positions from which and up to which a text has no token, when `offset` is the first
position and `finish` the one after the last character. -/
def gaps (offset finish : Nat) : List (Nat × Token) → List (Nat × Nat)
  | [] => [(offset, finish)]
  | item :: later => (offset, item.1) :: gaps (stop item) finish later

theorem byteLength_upTo {blanks : List Char} {start : Nat} (before : byteLength front = offset)
    (eq : start = offset + byteLength blanks) (token : Token) :
    byteLength (front ++ blanks ++ token.text.toList) = stop (start, token) := by
  rw [byteLength_append, byteLength_append, before, stop, eq]

def Blank (cs : List Char) : Prop :=
  ∀ c ∈ cs, isBlank c = true

/-- The characters of a text that starts at byte `offset` are those of its tokens, with blank ones
before each and after the last. What follows an atom is no part of it. -/
inductive Layout : Nat → List Char → List (Nat × Token) → Prop
  | gap {offset : Nat} {blanks : List Char} : Blank blanks → Layout offset blanks []
  | token {offset start : Nat} {blanks rest : List Char} {token : Token}
      {later : List (Nat × Token)} :
      Blank blanks → start = offset + byteLength blanks → token.Spelled →
      (token.isAtom = true → StartsApart rest) →
      Layout (start + byteLength token.text.toList) rest later →
      Layout offset (blanks ++ (token.text.toList ++ rest)) ((start, token) :: later)

/-- A token starts with a character that is not blank. -/
theorem Spelled.exists_cons (h : token.Spelled) :
    ∃ c rest, token.text.toList = c :: rest ∧ isBlank c = false := by
  cases token with
  | opening => exact ⟨'(', [], rfl, by decide⟩
  | closing => exact ⟨')', [], rfl, by decide⟩
  | atom name =>
    obtain ⟨c, rest, eq⟩ := List.exists_cons_of_ne_nil h.nonempty
    have inked := h.inked c (eq ▸ List.mem_cons_self)
    exact ⟨c, rest, eq, (isAtomChar_iff.mp inked).1⟩

theorem Spelled.byteLength_pos (h : token.Spelled) : 0 < byteLength token.text.toList := by
  obtain ⟨c, rest, eq, -⟩ := h.exists_cons
  rw [eq, byteLength_cons]
  exact Nat.add_pos_left c.utf8Size_pos _

/-- An atom would go on with the characters of another one. -/
theorem Spelled.not_startsApart (h : token.Spelled) (isAtom : token.isAtom = true)
    (rest : List Char) : ¬ StartsApart (token.text.toList ++ rest) := by
  cases token with
  | opening | closing => cases isAtom
  | atom name =>
    obtain ⟨c, run, eq⟩ := List.exists_cons_of_ne_nil h.nonempty
    have inked := h.inked c (eq ▸ List.mem_cons_self)
    rw [text, eq, List.cons_append, startsApart_cons, inked]
    exact nofun

/-! ## The layout of a scan -/

theorem Layout.blank (h : Layout (offset + c.utf8Size) rest items) (blank : isBlank c = true) :
    Layout offset (c :: rest) items := by
  cases h with
  | gap blanks => exact .gap (List.forall_mem_cons.mpr ⟨blank, blanks⟩)
  | @token _ start run back token later blanks eq spelled apart layout =>
    rw [Nat.add_assoc, ← byteLength_cons] at eq
    exact .token (List.forall_mem_cons.mpr ⟨blank, blanks⟩) eq spelled apart layout

theorem Layout.here {run : List Char} (spelled : token.Spelled) (eq : token.text.toList = run)
    (apart : token.isAtom = true → StartsApart rest)
    (h : Layout (offset + byteLength run) rest later) :
    Layout offset (run ++ rest) ((offset, token) :: later) := by
  subst eq
  have noBlanks : Blank [] := nofun
  exact .token noBlanks rfl spelled apart h

theorem layout_scanFrom (offset : Nat) (cs : List Char) :
    Layout offset cs (scanFrom offset cs) := by
  induction cs using scan_induction generalizing offset with
  | nil => exact .gap nofun
  | blank c rest blank ih =>
    rw [scanFrom_blank blank]
    exact (ih _).blank blank
  | opening rest ih =>
    have spelled : opening.Spelled := trivial
    exact .here spelled rfl nofun (ih _)
  | closing rest ih =>
    have spelled : closing.Spelled := trivial
    exact .here spelled rfl nofun (ih _)
  | atom run rest nonempty inked apart ih =>
    have eq : (atom (String.ofList run)).text.toList = run := String.toList_ofList
    have spelled : (atom (String.ofList run)).Spelled := ⟨eq.symm ▸ nonempty, eq.symm ▸ inked⟩
    rw [scanFrom_append nonempty inked apart]
    exact .here spelled eq (fun _ => apart) (ih _)

/-! ## What a layout says -/

namespace Layout

theorem spelled (h : Layout offset cs items) : ∀ item ∈ items, item.2.Spelled := by
  induction h with
  | gap _ => exact nofun
  | token _ _ spelled _ _ ih => exact List.forall_mem_cons.mpr ⟨spelled, ih⟩

theorem le_start (h : Layout offset cs items) : ∀ item ∈ items, offset ≤ item.1 := by
  induction h with
  | gap _ => exact nofun
  | @token offset start blanks rest token later _ eq _ _ _ ih =>
    refine List.forall_mem_cons.mpr ⟨by omega, ?_⟩
    intro item mem
    have := ih item mem
    omega

/-- Tokens start one after the other. -/
theorem pairwise_start (h : Layout offset cs items) :
    items.Pairwise fun a b => a.1 < b.1 := by
  induction h with
  | gap _ => exact .nil
  | @token offset start blanks rest token later _ _ spelled _ layout ih =>
    refine List.pairwise_cons.mpr ⟨?_, ih⟩
    intro item mem
    have := layout.le_start item mem
    have := spelled.byteLength_pos
    omega

/-- Each token stands where its offset says. -/
theorem slice_token (h : Layout offset cs items) (front : List Char)
    (before : byteLength front = offset) :
    ∀ item ∈ items, slice? item.1 (stop item) (front ++ cs) = some item.2.text.toList := by
  induction h generalizing front with
  | gap _ => exact nofun
  | @token offset start blanks rest token later _ eq _ _ _ ih =>
    have here : byteLength (front ++ blanks) = start := by
      rw [byteLength_append, before, eq]
    refine List.forall_mem_cons.mpr ⟨?_, ?_⟩
    · have cut := slice?_append (front ++ blanks) token.text.toList rest
      rw [here, List.append_assoc] at cut
      exact cut
    · have after := ih (front ++ blanks ++ token.text.toList) (byteLength_upTo before eq token)
      simp only [List.append_assoc] at after
      exact after

/-- Where no token stands the text is blank. -/
theorem slice_gap (h : Layout offset cs items) (front : List Char)
    (before : byteLength front = offset) :
    ∀ gap ∈ gaps offset (byteLength (front ++ cs)) items,
      ∃ blanks, slice? gap.1 gap.2 (front ++ cs) = some blanks ∧ Blank blanks := by
  induction h generalizing front with
  | @gap offset blanks blank =>
    refine List.forall_mem_singleton.mpr ⟨blanks, ?_, blank⟩
    have cut := slice?_append front blanks []
    rw [List.append_nil, before] at cut
    rw [byteLength_append, before]
    exact cut
  | @token offset start blanks rest token later blank eq _ _ _ ih =>
    refine List.forall_mem_cons.mpr ⟨⟨blanks, ?_, blank⟩, ?_⟩
    · have cut := slice?_append front blanks (token.text.toList ++ rest)
      rw [before, ← eq] at cut
      exact cut
    · have after := ih (front ++ blanks ++ token.text.toList) (byteLength_upTo before eq token)
      simp only [List.append_assoc] at after
      exact after

/-- An atom and the next one have a blank character between them. -/
theorem chain_atoms (h : Layout offset cs items) (front : List Char)
    (before : byteLength front = offset) :
    items.IsChain fun a b => a.2.isAtom = true → b.2.isAtom = true →
      ∃ c blanks, slice? (stop a) b.1 (front ++ cs) = some (c :: blanks) ∧ isBlank c = true := by
  induction h generalizing front with
  | gap _ => exact .nil
  | @token offset start blanks rest token later blank eq spelled apart layout ih =>
    have here := byteLength_upTo before eq token
    have after := ih (front ++ blanks ++ token.text.toList) here
    simp only [List.append_assoc] at after
    cases layout with
    | gap _ => exact .singleton _
    | @token _ start' blanks' rest' token' later' blank' eq' spelled' apart' layout' =>
      refine .cons_cons ?_ after
      intro isAtom isAtom'
      cases blanks' with
      | nil => exact absurd (apart isAtom) (Spelled.not_startsApart spelled' isAtom' rest')
      | cons c run =>
        have cut := slice?_append (front ++ blanks ++ token.text.toList) (c :: run)
          (token'.text.toList ++ rest')
        rw [here] at cut
        simp only [List.append_assoc] at cut
        refine ⟨c, run, ?_, blank' c List.mem_cons_self⟩
        rw [eq']
        exact cut

end Layout

end LambdaWorkbench.Token
