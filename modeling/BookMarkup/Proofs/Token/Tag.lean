import BookMarkup.Document.Printer
import BookMarkup.Token.Attribute
import BookMarkup.Token.Scan
import Mathlib.Data.List.TakeWhile

/-!
Written tags as they are read. A name has no character that ends it, and an escaped value none that
ends its quotes, so that the tag ends where it was meant to end, and its parts are read back one
after the other.
-/

namespace BookMarkup.Token

open Text

/-- A name that can be written, with a prefix or without one: it has characters, and none that mean
something in a tag. -/
def IsQName (name : String) : Prop :=
  name ≠ "" ∧ ∀ c ∈ name.toList, isMarkupBlank c = false ∧
    c ∉ ['<', '>', '/', '=', '\x27', '"', '&', '!', '?']

def IsName (name : String) : Prop :=
  name ≠ "" ∧ ∀ c ∈ name.toList, isMarkupBlank c = false ∧
    c ∉ ['<', '>', '/', '=', ':', '\x27', '"', '&', '!', '?']

-- The characters of the name are looked at one by one, and not all the characters there are.
instance (name : String) : Decidable (IsQName name) :=
  @instDecidableAnd _ _ inferInstance (List.decidableBAll _ name.toList)

instance (name : String) : Decidable (IsName name) :=
  @instDecidableAnd _ _ inferInstance (List.decidableBAll _ name.toList)

/-! ### Names -/

section Stretch

variable {p : Char → Bool} {xs ys : List Char}

/-- Where `p` comes to an end before what is appended, it does so all the same after. -/
theorem takeWhile_append_of_head? (hy : ∀ c ∈ ys.head?, p c = false) :
    (xs ++ ys).takeWhile p = xs.takeWhile p := by
  induction xs with
  | nil => cases ys <;> simp_all
  | cons c xs ih => by_cases hc : p c <;> simp [hc, ih]

theorem dropWhile_append_of_head? (hy : ∀ c ∈ ys.head?, p c = false) :
    (xs ++ ys).dropWhile p = xs.dropWhile p ++ ys := by
  induction xs with
  | nil => cases ys <;> simp_all
  | cons c xs ih => by_cases hc : p c <;> simp [hc, ih]

theorem takeWhile_append_stop (h : ∀ c ∈ xs, p c) (hy : ∀ c ∈ ys.head?, p c = false) :
    (xs ++ ys).takeWhile p = xs :=
  (takeWhile_append_of_head? hy).trans (List.takeWhile_eq_self_iff.2 h)

theorem dropWhile_append_stop (h : ∀ c ∈ xs, p c) (hy : ∀ c ∈ ys.head?, p c = false) :
    (xs ++ ys).dropWhile p = ys := by
  rw [dropWhile_append_of_head? hy, List.dropWhile_eq_nil_iff.2 h, List.nil_append]

end Stretch

theorem splitName_append {name body : List Char} (hn : ∀ c ∈ name, isMarkupBlank c = false)
    (hb : ∀ c ∈ body.head?, isMarkupBlank c = true) :
    splitName (name ++ body) = ⟨String.ofList name, body⟩ := by
  have hn' : ∀ c ∈ name, (!isMarkupBlank c) = true := fun c hc => by simp [hn c hc]
  have hb' : ∀ c ∈ body.head?, (!isMarkupBlank c) = false := fun c hc => by simp [hb c hc]
  rw [splitName, takeWhile_append_stop hn' hb', dropWhile_append_stop hn' hb']

theorem IsName.isQName {name : String} (h : IsName name) : IsQName name :=
  ⟨h.1, fun c hc => ⟨(h.2 c hc).1, fun hm => (h.2 c hc).2 (by grind)⟩⟩

theorem IsName.ne_colon {name : String} (h : IsName name) {c : Char} (hc : c ∈ name.toList) :
    c ≠ ':' := by
  rintro rfl
  exact (h.2 ':' hc).2 (by simp)

section IsQName

variable {name : String} (h : IsQName name)

include h

theorem IsQName.exists_cons : ∃ c cs, name.toList = c :: cs := by
  cases hl : name.toList with
  | nil => exact absurd (String.toList_eq_nil_iff.1 hl) h.1
  | cons c cs => exact ⟨c, cs, rfl⟩

theorem IsQName.not_blank {c : Char} (hc : c ∈ name.toList) : isMarkupBlank c = false :=
  (h.2 c hc).1

theorem IsQName.ne {c d : Char} (hc : c ∈ name.toList)
    (hd : d ∈ ['<', '>', '/', '=', '\x27', '"', '&', '!', '?']) : c ≠ d := by
  rintro rfl
  exact (h.2 c hc).2 hd

end IsQName

/-! ### Where a tag ends -/

theorem tagEnd_plain {xs : List Char} (h : ∀ c ∈ xs, c ≠ '>' ∧ c ≠ '"' ∧ c ≠ '\x27')
    (seen rest : List Char) :
    tagEnd none seen (xs ++ rest) = tagEnd none (xs.reverse ++ seen) rest := by
  induction xs generalizing seen with
  | nil => rfl
  | cons c xs ih =>
      obtain ⟨h₁, h₂, h₃⟩ := h c List.mem_cons_self
      rw [List.cons_append, tagEnd]
      simp only [h₁, h₂, h₃, or_self, if_false]
      rw [ih fun x hx => h x (List.mem_cons_of_mem c hx)]
      simp

theorem tagEnd_quoted {xs : List Char} (h : ∀ c ∈ xs, c ≠ '"') (seen rest : List Char) :
    tagEnd (some '"') seen (xs ++ '"' :: rest) = tagEnd none ('"' :: xs.reverse ++ seen) rest := by
  induction xs generalizing seen with
  | nil => simp [tagEnd]
  | cons c xs ih =>
      rw [List.cons_append, tagEnd]
      simp only [h c List.mem_cons_self, if_false]
      rw [ih fun x hx => h x (List.mem_cons_of_mem c hx)]
      simp

theorem ne_of_mem_escapeValue {value : String} {c : Char} (hc : c ∈ escapeValue value) :
    c ≠ '"' ∧ c ≠ '>' := by
  obtain ⟨x, _, hx⟩ := List.mem_flatMap.1 hc
  constructor
  all_goals
    rintro rfl
    rw [escapeValueChar.eq_def] at hx
    split at hx
    · simp at hx
    · simp at hx
    · rw [escapeDataChar.eq_def] at hx
      split at hx
      · simp at hx
      · simp at hx
      · simp at hx
      · obtain rfl := List.mem_singleton.1 hx
        contradiction

def writtenAttributes (attributes : List (String × String)) : List Char :=
  attributes.flatMap fun (name, value) => Layout.writtenAttribute name value

theorem tagEnd_writtenAttributes {attributes : List (String × String)}
    (h : ∀ a ∈ attributes, IsQName a.1) (seen rest : List Char) :
    tagEnd none seen (writtenAttributes attributes ++ rest) =
      tagEnd none ((writtenAttributes attributes).reverse ++ seen) rest := by
  induction attributes generalizing seen with
  | nil => rfl
  | cons a attributes ih =>
      have ha := h a List.mem_cons_self
      have hplain : ∀ c ∈ ' ' :: a.1.toList ++ ['='], c ≠ '>' ∧ c ≠ '"' ∧ c ≠ '\x27' := by
        intro c hc
        rcases List.mem_append.1 hc with hc | hc
        · rcases List.mem_cons.1 hc with rfl | hc
          · decide
          · exact ⟨ha.ne hc (by simp), ha.ne hc (by simp), ha.ne hc (by simp)⟩
        · rw [List.mem_singleton.1 hc]
          decide
      have hsplit : writtenAttributes (a :: attributes) ++ rest =
          (' ' :: a.1.toList ++ ['=']) ++ '"' :: (escapeValue a.2 ++ '"' ::
            (writtenAttributes attributes ++ rest)) := by
        simp [writtenAttributes, Layout.writtenAttribute]
      rw [hsplit, tagEnd_plain hplain, tagEnd]
      simp only [show ('"' : Char) ≠ '>' by decide, if_false, true_or, if_true]
      rw [tagEnd_quoted fun c hc => (ne_of_mem_escapeValue hc).1,
        ih fun b hb => h b (List.mem_cons_of_mem a hb)]
      simp [writtenAttributes, Layout.writtenAttribute]

theorem getLast?_writtenAttributes {attributes : List (String × String)} (h : attributes ≠ []) :
    (writtenAttributes attributes).getLast? = some '"' := by
  obtain ⟨before, a, rfl⟩ := (List.eq_nil_or_concat attributes).resolve_left h
  have hlast : writtenAttributes (before.concat a) =
      writtenAttributes before ++ (' ' :: a.1.toList ++ ['=', '"'] ++ escapeValue a.2) ++
        ['"'] := by
    simp [writtenAttributes, Layout.writtenAttribute]
  rw [hlast, List.getLast?_concat]

theorem head?_writtenAttributes {attributes : List (String × String)} {c : Char}
    (h : c ∈ (writtenAttributes attributes).head?) : isMarkupBlank c = true := by
  cases attributes with
  | nil => simp [writtenAttributes] at h
  | cons a attributes =>
      obtain rfl : ' ' = c := by simpa [writtenAttributes, Layout.writtenAttribute] using h
      rfl

theorem ne_of_mem_writtenAttributes {attributes : List (String × String)}
    (h : ∀ a ∈ attributes, IsQName a.1) {c : Char} (hc : c ∈ writtenAttributes attributes) :
    c ≠ '>' := by
  obtain ⟨⟨name, value⟩, ha, hc⟩ := List.mem_flatMap.1 hc
  simp only [Layout.writtenAttribute, List.cons_append, List.mem_cons, List.mem_append,
    List.not_mem_nil, or_false] at hc
  rcases hc with rfl | ((hc | rfl | rfl) | hc) | rfl
  · decide
  · exact (h _ ha).ne hc (by simp)
  · decide
  · decide
  · exact (ne_of_mem_escapeValue hc).2
  · decide

/-! ### Tags -/

def tag? : Token → Option Tag
  | .startTag tag => some tag
  | .emptyTag tag => some tag
  | _ => none

section Tags

variable {name : String} (hn : IsQName name) {attributes : List (String × String)}
  (ha : ∀ a ∈ attributes, IsQName a.1) (rest : List Char)

include hn

theorem tagEnd_name (seen : List Char) :
    tagEnd none seen (name.toList ++ rest) = tagEnd none (name.toList.reverse ++ seen) rest :=
  tagEnd_plain (fun _ hc => ⟨hn.ne hc (by simp), hn.ne hc (by simp), hn.ne hc (by simp)⟩) seen rest

theorem next_tag (body : List Char) :
    next '<' (name.toList ++ body) =
      match tagEnd none [] (name.toList ++ body) with
      | some (inside, rest) => .ok (ofInside inside, rest)
      | none => .error ⟨.openTag, '<' :: (name.toList ++ body)⟩ := by
  obtain ⟨c, cs, hc⟩ := hn.exists_cons
  have hm : c ∈ name.toList := hc ▸ List.mem_cons_self
  have h₁ : c ≠ '!' := hn.ne hm (by simp)
  have h₂ : c ≠ '?' := hn.ne hm (by simp)
  have h₃ : c ≠ '/' := hn.ne hm (by simp)
  simp only [next, if_true]
  rw [hc, List.cons_append, markup.eq_def]
  split
  · next he => exact absurd (List.cons.inj he).1 h₁
  · next he => exact absurd (List.cons.inj he).1 h₂
  · next he => exact absurd (List.cons.inj he).1 h₂
  · next he => exact absurd (List.cons.inj he).1 h₃
  · rfl

theorem splitName_written :
    splitName (name.toList ++ writtenAttributes attributes) =
      ⟨name, writtenAttributes attributes⟩ := by
  rw [splitName_append (fun _ hc => hn.not_blank hc) fun _ hc => head?_writtenAttributes hc,
    String.ofList_toList]

include ha

theorem next_startTag :
    next '<' (name.toList ++ writtenAttributes attributes ++ '>' :: rest) =
      .ok (.startTag ⟨name, writtenAttributes attributes⟩, rest) := by
  have hslash : (name.toList ++ writtenAttributes attributes).getLast? ≠ some '/' := by
    rw [List.getLast?_append]
    cases attributes with
    | nil =>
        intro hl
        have hm : '/' ∈ name.toList := List.mem_of_getLast? (by simpa [writtenAttributes] using hl)
        exact hn.ne hm (by simp) rfl
    | cons a attributes => simp [getLast?_writtenAttributes]
  rw [List.append_assoc, next_tag hn, tagEnd_name hn, tagEnd_writtenAttributes ha, tagEnd]
  simp only [if_true]
  rw [ofInside]
  simp only [List.reverse_append, List.reverse_reverse, List.append_nil, hslash, if_false,
    splitName_written hn]

theorem next_emptyTag :
    next '<' (name.toList ++ writtenAttributes attributes ++ '/' :: '>' :: rest) =
      .ok (.emptyTag ⟨name, writtenAttributes attributes⟩, rest) := by
  rw [List.append_assoc, next_tag hn, tagEnd_name hn, tagEnd_writtenAttributes ha, tagEnd]
  simp only [show ('/' : Char) ≠ '>' by decide, show ('/' : Char) ≠ '"' by decide,
    show ('/' : Char) ≠ '\x27' by decide, or_self, if_false]
  rw [tagEnd]
  simp only [if_true]
  rw [ofInside]
  simp [splitName_written hn]

omit ha

theorem next_endTag :
    next '<' ('/' :: (name.toList ++ '>' :: rest)) = .ok (.endTag name, rest) := by
  obtain ⟨c, cs, hc⟩ := hn.exists_cons
  have hend : endName name.toList = name := by
    have hstop : ([] ++ name.toList.reverse).dropWhile isMarkupBlank = name.toList.reverse :=
      dropWhile_append_stop (by simp) fun x hx =>
        hn.not_blank (List.mem_reverse.1 (List.mem_of_head? hx))
    rw [List.nil_append] at hstop
    rw [endName, hstop]
    split
    · next he => simp [hc] at he
    · rw [List.reverse_reverse, String.ofList_toList]
  simp only [next, if_true, markup]
  rw [tagEnd_name hn, tagEnd]
  simp [hend]

end Tags

/-! ### References -/

theorem next_reference {name : List Char} (h : ∀ c ∈ name, c ≠ ';' ∧ c ≠ '&' ∧ c ≠ '<')
    (rest : List Char) :
    next '&' (name ++ ';' :: rest) = .ok (.reference (String.ofList name), rest) := by
  have hin : ∀ c ∈ name, (c != ';' && c != '&' && c != '<') = true := fun c hc => by
    simpa [and_assoc] using h c hc
  have hstop : ∀ c ∈ (';' :: rest).head?, (c != ';' && c != '&' && c != '<') = false := by simp
  rw [next, if_neg (by decide), if_pos rfl, referred, takeWhile_append_stop hin hstop,
    dropWhile_append_stop hin hstop]
  rfl

end BookMarkup.Token
