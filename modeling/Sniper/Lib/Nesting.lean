import Mathlib.Data.List.Induction

/-! # Nested brackets

Words of brackets that open and close. A word is read with the stack of the brackets that are
open; a bracket may only close the last one.
-/
namespace Sniper.Lib.Nesting

variable {B : Type} [DecidableEq B]

inductive Token (B : Type) where
  | opens (b : B)
  | closes (b : B)

def Token.read : List B → Token B → Option (List B)
  | opened, .opens b => some (b :: opened)
  | top :: opened, .closes b => if top = b then some opened else none
  | [], .closes _ => none

def reads (opened : List B) (w : List (Token B)) : Option (List B) := w.foldlM Token.read opened

/-- The brackets that are open after a word, the last one first. -/
def nesting (w : List (Token B)) : Option (List B) := reads [] w

/-- Each bracket is closed by its own, in the order of a stack. -/
inductive Balanced : List (Token B) → Prop where
  | nil : Balanced []
  | wrap (b : B) (inner : List (Token B)) : Balanced inner →
      Balanced (.opens b :: (inner ++ [.closes b]))
  | append (w w' : List (Token B)) : Balanced w → Balanced w' → Balanced (w ++ w')

variable {b : B} {opened : List B} {w w' : List (Token B)}

@[simp] theorem reads_nil : reads opened [] = some opened := rfl

theorem reads_append : reads opened (w ++ w') = (reads opened w).bind fun o => reads o w' :=
  List.foldlM_append

@[simp] theorem reads_opens : reads opened (.opens b :: w) = reads (b :: opened) w := rfl

@[simp] theorem reads_closes : reads (b :: opened) (.closes b :: w) = reads opened w := by
  change (if b = b then some opened else none).bind (fun o => reads o w) = _
  rw [if_pos rfl]
  rfl

theorem nesting_append (h : nesting w = some opened) : nesting (w ++ w') = reads opened w' := by
  unfold nesting at h ⊢
  rw [reads_append, h]
  rfl

theorem Balanced.reads (h : Balanced w) (opened : List B) :
    Nesting.reads opened w = some opened := by
  induction h generalizing opened with
  | nil => rfl
  | wrap b inner _ ih =>
    rw [reads_opens, reads_append, ih, Option.bind_some, reads_closes, reads_nil]
  | append w w' _ _ ih ih' => rw [reads_append, ih, Option.bind_some, ih']

/-- A word that leaves these brackets open. -/
inductive Leaves : List B → List (Token B) → Prop where
  | closed (w : List (Token B)) : Balanced w → Leaves [] w
  | opens (b : B) (opened : List B) (front inner : List (Token B)) : Leaves opened front →
      Balanced inner → Leaves (b :: opened) (front ++ .opens b :: inner)

omit [DecidableEq B] in
theorem Leaves.append (h : Leaves opened w) (hw' : Balanced w') : Leaves opened (w ++ w') := by
  cases h with
  | closed _ hw => exact .closed _ (.append _ _ hw hw')
  | opens b opened front inner hfront hinner =>
    rw [List.append_assoc, List.cons_append]
    exact .opens b opened front _ hfront (.append _ _ hinner hw')

theorem leaves_of_nesting (h : nesting w = some opened) : Leaves opened w := by
  induction w using List.reverseRecOn generalizing opened with
  | nil =>
    cases h
    exact .closed [] .nil
  | append_singleton w token ih =>
    unfold nesting at h ih
    rw [reads_append] at h
    obtain ⟨before, hbefore, hread⟩ := Option.bind_eq_some_iff.mp h
    have hleaves := ih hbefore
    cases token with
    | opens b =>
      cases hread
      exact .opens b before w [] hleaves .nil
    | closes b =>
      cases hleaves with
      | closed _ _ => cases hread
      | opens top rest front inner hfront hinner =>
        change (if top = b then some rest else none).bind _ = _ at hread
        by_cases htop : top = b
        · subst htop
          rw [if_pos rfl] at hread
          cases hread
          rw [List.append_assoc, List.cons_append]
          exact hfront.append (.wrap top inner hinner)
        · rw [if_neg htop] at hread
          cases hread

theorem nesting_eq_nil_iff : nesting w = some [] ↔ Balanced w := by
  constructor
  · intro h
    generalize hopened : ([] : List B) = opened at h
    cases leaves_of_nesting h with
    | closed _ hw => exact hw
    | opens => cases hopened
  · exact fun h => h.reads []

end Sniper.Lib.Nesting
