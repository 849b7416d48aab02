import BookMarkup.Text.Blank
import Mathlib.Data.List.Basic
import Mathlib.Data.List.TakeWhile

/-!
Trimmed texts: there is no white space at either end. Trimming leaves such a text, does nothing to
one, and joining some that are not empty leaves one again.
-/

namespace BookMarkup.Text

/-- Trimming leaves nothing exactly of a blank text. -/
theorem trim_eq_empty_iff {s : String} : trim s = "" ↔ isBlank s := by
  rw [trim, String.ofList_eq_empty_iff, List.reverse_eq_nil_iff, List.dropWhile_eq_nil_iff,
    ← List.all_eq_true, List.all_reverse, List.all_eq_not_any_not, List.any_dropWhile, Bool.not_not,
    isBlank]

structure Trimmed (s : String) : Prop where
  first : ∀ c ∈ s.toList.head?, isSpace c = false
  last : ∀ c ∈ s.toList.getLast?, isSpace c = false

theorem dropWhile_eq_self {l : List Char} (h : ∀ c ∈ l.head?, isSpace c = false) :
    l.dropWhile isSpace = l :=
  List.dropWhile_eq_self_iff.2 fun hl => by simp [h l[0] (by simp [List.head?_eq_getElem?, hl])]

theorem trimmed_trim (s : String) : Trimmed (trim s) where
  first c hc := by
    -- What is cut off at the end is not the first character, unless nothing is left.
    rw [trim, String.toList_ofList, List.head?_reverse] at hc
    obtain ⟨cut, hcut⟩ :=
      List.dropWhile_suffix isSpace (l := (s.toList.dropWhile isSpace).reverse)
    have hhead : (s.toList.dropWhile isSpace).head? = some c := by
      rw [← List.getLast?_reverse, ← hcut, List.getLast?_append_of_ne_nil _ ?_]
      · exact hc
      · exact List.ne_nil_of_mem (List.mem_of_getLast? hc)
    simpa only [hhead] using List.head?_dropWhile_not isSpace s.toList
  last c hc := by
    rw [trim, String.toList_ofList, List.getLast?_reverse] at hc
    simpa only [Option.mem_def.1 hc] using
      List.head?_dropWhile_not isSpace (s.toList.dropWhile isSpace).reverse

theorem Trimmed.trim_eq {s : String} (h : Trimmed s) : trim s = s := by
  have hlast : ∀ c ∈ s.toList.reverse.head?, isSpace c = false := by
    rw [List.head?_reverse]
    exact h.last
  rw [trim, dropWhile_eq_self h.first, dropWhile_eq_self hlast, List.reverse_reverse,
    String.ofList_toList]

/-- Texts that are joined meet at their separators only. -/
theorem trimmed_intercalate (separator : String) {parts : List String}
    (h : ∀ part ∈ parts, Trimmed part ∧ part ≠ "") (hne : parts ≠ []) :
    Trimmed (separator.intercalate parts) ∧ separator.intercalate parts ≠ "" := by
  match parts with
  | [] => exact absurd rfl hne
  | [part] => simpa using h part List.mem_cons_self
  | part :: next :: rest =>
      obtain ⟨ht, he⟩ := h part List.mem_cons_self
      obtain ⟨ht', he'⟩ := trimmed_intercalate separator
        (fun p hp => h p (List.mem_cons_of_mem part hp)) (List.cons_ne_nil next rest)
      have hpart : part.toList ≠ [] := mt String.toList_eq_nil_iff.1 he
      have hrest := mt String.toList_eq_nil_iff.1 he'
      rw [String.intercalate_cons_cons]
      refine ⟨⟨fun c hc => ht.first c ?_, fun c hc => ht'.last c ?_⟩, by simp [he]⟩
      · rwa [String.toList_append, String.toList_append, List.append_assoc,
          List.head?_append_of_ne_nil _ hpart] at hc
      · rwa [String.toList_append, List.getLast?_append_of_ne_nil _ hrest] at hc

/-- Joining texts without the white space around them, and without those that are nothing else. -/
theorem trimmed_intercalate_trim (separator : String) {texts : List String}
    (hne : (texts.map trim).filter (· ≠ "") ≠ []) :
    Trimmed (separator.intercalate ((texts.map trim).filter (· ≠ ""))) ∧
      separator.intercalate ((texts.map trim).filter (· ≠ "")) ≠ "" := by
  refine trimmed_intercalate separator (fun part hpart => ?_) hne
  obtain ⟨hm, hpart⟩ := List.mem_filter.1 hpart
  obtain ⟨text, _, rfl⟩ := List.mem_map.1 hm
  exact ⟨trimmed_trim text, by simpa using hpart⟩

end BookMarkup.Text
