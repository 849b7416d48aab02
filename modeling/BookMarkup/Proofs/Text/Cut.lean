import BookMarkup.Text.Cut

/-!
Texts that a mark ends. A text is cut right after itself if the mark does not begin any earlier, and
whether it does is told by the text and the mark alone, not by what follows them. Where stretches are
erased, each goes as a whole and what is between them stays.
-/

namespace BookMarkup.Text

theorem after?_eq_none_append {mark text : List Char} (rest : List Char)
    (h : after? mark text = none) (hl : mark.length ≤ text.length) :
    after? mark (text ++ rest) = none := by
  induction mark generalizing text with
  | nil => simp [after?] at h
  | cons m mark ih =>
      cases text with
      | nil => simp at hl
      | cons c text =>
          rw [List.cons_append, after?]
          rw [after?] at h
          split at h
          · next hm => rw [if_pos hm, ih h (Nat.le_of_succ_le_succ hl)]
          · next hm => rw [if_neg hm]

theorem after?_eq_none_of_append {mark text rest : List Char}
    (h : after? mark (text ++ rest) = none) : after? mark text = none := by
  cases ha : after? mark text with
  | none => rfl
  | some tail =>
      rw [after?_eq_some_iff] at ha
      rw [ha, List.append_assoc, after?_append] at h
      simp at h

/-- The mark begins nowhere in the text, if it stands right after it. -/
def Uncut (mark text : List Char) : Prop :=
  ∀ tail, tail <:+ text → tail ≠ [] → after? mark (tail ++ mark) = none

theorem Uncut.suffix {mark text tail : List Char} (h : Uncut mark text) (ht : tail <:+ text) :
    Uncut mark tail :=
  fun b hb hne => h b (hb.trans ht) hne

theorem cutFrom_of_uncut {mark text : List Char} (h : Uncut mark text) (hm : mark ≠ [])
    (seen rest : List Char) :
    cutFrom mark seen (text ++ mark ++ rest) = some (seen.reverse ++ text, rest) := by
  induction text generalizing seen with
  | nil =>
      cases mark with
      | nil => exact absurd rfl hm
      | cons m mark =>
          have ha := after?_append (m :: mark) rest
          rw [List.cons_append] at ha
          simp [cutFrom, ha]
  | cons c text ih =>
      have ha : after? mark (c :: text ++ mark ++ rest) = none :=
        after?_eq_none_append rest (h (c :: text) (List.suffix_refl _) (by simp)) (by
          rw [List.length_append]
          exact Nat.le_add_left _ _)
      have hs : text <:+ c :: text := List.suffix_cons c text
      simp only [List.cons_append] at ha ⊢
      rw [cutFrom, ha]
      simp only
      rw [ih (h.suffix hs) (c :: seen)]
      simp

theorem cut?_of_uncut {mark text : List Char} (h : Uncut mark text) (hm : mark ≠ [])
    (rest : List Char) : cut? mark (text ++ mark ++ rest) = some (text, rest) := by
  rw [cut?, cutFrom_of_uncut h hm]
  rfl

theorem uncut_of_cutFrom {mark seen text a b : List Char}
    (h : cutFrom mark seen text = some (a, b)) : ∃ a', a = seen.reverse ++ a' ∧ Uncut mark a' := by
  induction text generalizing seen with
  | nil =>
      simp only [cutFrom, Option.map_eq_some_iff, Prod.mk.injEq] at h
      obtain ⟨_, _, rfl, _⟩ := h
      refine ⟨[], by simp, fun tail ht hne => ?_⟩
      exact absurd (List.suffix_nil.1 ht) hne
  | cons c cs ih =>
      have heq := cutFrom_eq_some h
      rw [cutFrom] at h
      split at h
      · simp only [Option.some.injEq, Prod.mk.injEq] at h
        refine ⟨[], by simp [h.1], fun tail ht hne => ?_⟩
        exact absurd (List.suffix_nil.1 ht) hne
      · next hn =>
        obtain ⟨a', rfl, hu⟩ := ih h
        refine ⟨c :: a', by simp, fun tail ht hne => ?_⟩
        rcases List.suffix_cons_iff.1 ht with rfl | ht
        · simp only [List.reverse_cons, List.append_assoc, List.cons_append, List.nil_append,
            List.append_cancel_left_eq, List.cons.injEq, true_and] at heq
          rw [heq, ← List.append_assoc, ← List.cons_append] at hn
          exact after?_eq_none_of_append hn
        · exact hu tail ht hne

theorem uncut_of_cut? {mark text a b : List Char} (h : cut? mark text = some (a, b)) :
    Uncut mark a := by
  obtain ⟨a', rfl, hu⟩ := uncut_of_cutFrom h
  simpa using hu

theorem pieces_eq_splitOn (c : Char) (text : List Char) : pieces (· == c) text = text.splitOn c := by
  rw [List.splitOn_eq_splitOnP]
  induction text with
  | nil => rfl
  | cons x text ih =>
      rw [pieces, List.splitOnP_cons_eq_if_modifyHead, ih]
      cases hs : text.splitOnP (· == c) with
      | nil => exact absurd hs (List.splitOnP_ne_nil _ _)
      | cons p ps => rfl

/-! ### Erasing -/

section Erase

variable {width : List Char → Nat}

theorem eraseFrom_skip (skip : Nat) (text : List Char) :
    eraseFrom width skip [] text = eraseMatches width (text.drop skip) := by
  induction text generalizing skip with
  | nil => simp [eraseMatches, eraseFrom]
  | cons c cs ih =>
      cases skip with
      | zero => rfl
      | succ skip => rw [eraseFrom, ih, List.drop_succ_cons]

theorem eraseMatches_drop {text : List Char} (h : width text ≠ 0) :
    eraseMatches width text = eraseMatches width (text.drop (width text)) := by
  cases text with
  | nil => simp
  | cons c cs =>
      obtain ⟨k, hk⟩ := Nat.exists_eq_succ_of_ne_zero h
      rw [hk, List.drop_succ_cons, eraseMatches, eraseFrom]
      simp only [hk]
      exact eraseFrom_skip k cs

/-- What comes before the first stretch is kept. -/
theorem eraseMatches_append {text rest : List Char}
    (h : ∀ s, s <:+ text → s ≠ [] → width (s ++ rest) = 0) :
    eraseMatches width (text ++ rest) = text ++ eraseMatches width rest := by
  induction text with
  | nil => rfl
  | cons c cs ih =>
      have hc := h (c :: cs) (List.suffix_refl _) (by simp)
      rw [List.cons_append] at hc ⊢
      rw [eraseMatches_cons_of_width_zero hc, List.cons_append,
        ih fun s hs hne => h s (hs.trans (List.suffix_cons c cs)) hne]

end Erase

end BookMarkup.Text
