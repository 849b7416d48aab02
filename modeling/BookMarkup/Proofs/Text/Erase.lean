import BookMarkup.Proofs.Text.Cut
import Mathlib.Data.List.Infix

/-!
Erasing a mark from a text. Nothing is erased exactly if the mark is nowhere in the text, and a
character that the mark does not have cuts the text in two, as far as the mark is concerned.
-/

namespace BookMarkup.Text

section Infix

variable {α : Type} {mark a b : List α} {x : α}

theorem prefix_of_prefix_append_cons (hx : x ∉ mark) (h : mark <+: a ++ x :: b) : mark <+: a := by
  induction a generalizing mark with
  | nil =>
      cases mark with
      | nil => exact List.nil_prefix
      | cons m mark =>
          rw [List.nil_append, List.cons_prefix_cons] at h
          simp [h.1] at hx
  | cons c a ih =>
      cases mark with
      | nil => exact List.nil_prefix
      | cons m mark =>
          rw [List.cons_append, List.cons_prefix_cons] at h
          rw [List.mem_cons, not_or] at hx
          exact List.cons_prefix_cons.2 ⟨h.1, ih hx.2 h.2⟩

/-- What does not have the character stands on one side of it. -/
theorem infix_append_cons_iff (hx : x ∉ mark) :
    mark <:+: a ++ x :: b ↔ mark <:+: a ∨ mark <:+: b := by
  constructor
  · intro h
    induction a with
    | nil =>
        rw [List.nil_append] at h
        rcases List.infix_cons_iff.1 h with h | h
        · exact .inl (prefix_of_prefix_append_cons (a := []) hx h).isInfix
        · exact .inr h
    | cons c a ih =>
        rw [List.cons_append] at h
        rcases List.infix_cons_iff.1 h with h | h
        · exact .inl (prefix_of_prefix_append_cons (a := c :: a) hx h).isInfix
        · exact (ih h).imp_left fun h => h.trans (List.suffix_cons c a).isInfix
  · rintro (h | h)
    · exact h.trans (List.prefix_append _ _).isInfix
    · exact h.trans ((List.suffix_cons x b).trans (List.suffix_append a _)).isInfix

/-- A character that the mark does not have adds nothing to the text, as far as the mark is
concerned. -/
theorem infix_cons_iff_of_not_mem (hx : x ∉ mark) (hm : mark ≠ []) :
    mark <:+: x :: b ↔ mark <:+: b := by
  have h := infix_append_cons_iff (a := []) (b := b) hx
  rwa [List.nil_append, List.infix_nil, or_iff_right hm] at h

end Infix

section Erase

variable {mark text rest : List Char}

theorem widthOf_eq_zero_iff (hm : mark ≠ []) : widthOf mark text = 0 ↔ ¬ mark <+: text := by
  have h : (after? mark text).isSome ↔ mark <+: text := by
    rw [Option.isSome_iff_exists]
    exact exists_congr fun rest => after?_eq_some_iff.trans eq_comm
  rw [widthOf, ← h]
  split <;> simp_all

theorem eraseFrom_sublist (width : List Char → Nat) (skip : Nat) (seen text : List Char) :
    (eraseFrom width skip seen text).Sublist (seen.reverse ++ text) := by
  fun_induction eraseFrom width skip seen text with
  | case1 => simp
  | case2 seen c cs k ih => exact ih.trans (by simp)
  | case3 seen c cs hw ih => simpa using ih
  | case4 seen c cs k hw ih => exact ih.trans (by simp)

/-- Erasing leaves the text alone exactly if the mark is nowhere in it. -/
theorem eraseMatches_eq_self_iff (hm : mark ≠ []) :
    eraseMatches (widthOf mark) text = text ↔ ¬ mark <:+: text := by
  induction text with
  | nil => simp [eraseMatches, eraseFrom, hm]
  | cons c cs ih =>
      rw [List.infix_cons_iff, not_or, ← widthOf_eq_zero_iff hm]
      by_cases hw : widthOf mark (c :: cs) = 0
      · rw [eraseMatches_cons_of_width_zero hw, List.cons.injEq, ih]
        simp [hw]
      · simp only [hw, false_and, iff_false]
        intro h
        have hs := eraseFrom_sublist (widthOf mark) 0 [] ((c :: cs).drop (widthOf mark (c :: cs)))
        have hl := hs.length_le
        rw [← eraseMatches, ← eraseMatches_drop hw, h] at hl
        simp only [List.reverse_nil, List.nil_append, List.length_drop, List.length_cons] at hl
        omega

/-- A text without the mark is kept up to a character that the mark does not have. -/
theorem eraseMatches_append_cons {x : Char} (hx : x ∉ mark) (hm : mark ≠ [])
    (h : ¬ mark <:+: text) :
    eraseMatches (widthOf mark) (text ++ x :: rest) =
      text ++ x :: eraseMatches (widthOf mark) rest := by
  rw [eraseMatches_append, eraseMatches_cons_of_width_zero]
  · rw [widthOf_eq_zero_iff hm]
    intro hp
    simpa [hm] using prefix_of_prefix_append_cons (a := []) hx hp
  · intro s hs _
    rw [widthOf_eq_zero_iff hm]
    intro hp
    exact h ((prefix_of_prefix_append_cons hx hp).isInfix.trans hs.isInfix)

theorem eraseMatches_of_uncut (h : Uncut mark text) (hm : mark ≠ []) :
    eraseMatches (widthOf mark) (text ++ (mark ++ rest)) =
      text ++ eraseMatches (widthOf mark) rest := by
  have hw : widthOf mark (mark ++ rest) = mark.length := by
    rw [widthOf, after?_append]
    rfl
  rw [eraseMatches_append, eraseMatches_drop, hw, List.drop_left]
  · rw [hw]
    exact fun hz => hm (List.length_eq_zero_iff.1 hz)
  · intro s hs hne
    have hnone := after?_eq_none_append rest (h s hs hne) (by simp)
    rw [widthOf, ← List.append_assoc, hnone]
    rfl

end Erase

end BookMarkup.Text
