import BookMarkup.Text.Blank

/-!
Cutting texts: the pieces between separators, and the removal of every occurrence of a pattern from
left to right. What a removal joins together is not looked at again.
-/

namespace BookMarkup.Text

/-- The pieces between the separators, empty ones included; there is always at least one. -/
def pieces (separates : Char → Bool) : List Char → List (List Char)
  | [] => [[]]
  | c :: cs =>
    if separates c then [] :: pieces separates cs
    else
      match pieces separates cs with
      | [] => [[c]]
      | p :: ps => (c :: p) :: ps

/-- Whether a blank-separated list such as the value of `role` holds the token. -/
def hasToken (tokens token : String) : Bool :=
  (pieces isWordBreak tokens.toList).any fun word => !word.isEmpty && word == token.toList

/-- What follows `lead`, if the text begins with it. -/
def after? : (lead text : List Char) → Option (List Char)
  | [], text => some text
  | _ :: _, [] => none
  | l :: ls, c :: cs => if l = c then after? ls cs else none

/-- The text cut at the first occurrence of `mark`: what precedes it and what follows it. The
characters already passed are in `seen`, the last one first. -/
def cutFrom (mark seen : List Char) : List Char → Option (List Char × List Char)
  | [] => (after? mark []).map fun rest => (seen.reverse, rest)
  | c :: cs =>
    match after? mark (c :: cs) with
    | some rest => some (seen.reverse, rest)
    | none => cutFrom mark (c :: seen) cs

def cut? (mark text : List Char) : Option (List Char × List Char) :=
  cutFrom mark [] text

/-- Leaves out every stretch that `width` measures from its first character on; zero means that none
begins there. The first `skip` characters belong to a stretch already found, and `seen` holds
what is kept so far, the last character first. -/
def eraseFrom (width : List Char → Nat) (skip : Nat) (seen : List Char) :
    List Char → List Char
  | [] => seen.reverse
  | c :: cs =>
    match skip with
    | k + 1 => eraseFrom width k seen cs
    | 0 =>
      match width (c :: cs) with
      | 0 => eraseFrom width 0 (c :: seen) cs
      | k + 1 => eraseFrom width k seen cs

def eraseMatches (width : List Char → Nat) (text : List Char) : List Char :=
  eraseFrom width 0 [] text

/-- The length of `pattern` where the text begins with it, and otherwise zero. -/
def widthOf (pattern text : List Char) : Nat :=
  if (after? pattern text).isSome then pattern.length else 0

/-- The text without any occurrence of the pattern. -/
def eraseAll (pattern : String) (s : String) : String :=
  String.ofList (eraseMatches (widthOf pattern.toList) s.toList)

theorem after?_eq_some_iff {lead text rest : List Char} :
    after? lead text = some rest ↔ text = lead ++ rest := by
  induction lead generalizing text with
  | nil => simp [after?, eq_comm]
  | cons l ls ih =>
    cases text with
    | nil => simp [after?]
    | cons c cs =>
      by_cases h : l = c
      · simp [after?, h, ih]
      · simp [after?, h, Ne.symm h]

theorem after?_append (lead rest : List Char) : after? lead (lead ++ rest) = some rest :=
  after?_eq_some_iff.2 rfl

theorem cutFrom_eq_some {mark seen text a b : List Char} (h : cutFrom mark seen text = some (a, b)) :
    seen.reverse ++ text = a ++ mark ++ b := by
  induction text generalizing seen with
  | nil =>
    simp only [cutFrom, Option.map_eq_some_iff, Prod.mk.injEq] at h
    obtain ⟨rest, hr, rfl, rfl⟩ := h
    rw [after?_eq_some_iff] at hr
    simp [List.append_assoc, ← hr]
  | cons c cs ih =>
    rw [cutFrom] at h
    split at h
    · next rest hr =>
      rw [after?_eq_some_iff] at hr
      simp only [Option.some.injEq, Prod.mk.injEq] at h
      obtain ⟨rfl, rfl⟩ := h
      simp [hr]
    · simpa using ih h

/-- Cutting loses nothing but the mark. -/
theorem eq_of_cut? {mark text a b : List Char} (h : cut? mark text = some (a, b)) :
    text = a ++ mark ++ b := by
  simpa using cutFrom_eq_some h

theorem eraseFrom_seen (width : List Char → Nat) (skip : Nat) (seen text : List Char) :
    eraseFrom width skip seen text = seen.reverse ++ eraseFrom width skip [] text := by
  induction text generalizing skip seen with
  | nil => simp [eraseFrom]
  | cons c cs ih =>
    cases skip with
    | succ k => simp only [eraseFrom]; exact ih k seen
    | zero =>
      simp only [eraseFrom]
      split
      · rw [ih 0 (c :: seen), ih 0 [c]]; simp
      · next k _ => exact ih k seen

/-- A text in which no stretch begins is kept whole. -/
theorem eraseMatches_cons_of_width_zero {width : List Char → Nat} {c : Char} {cs : List Char}
    (h : width (c :: cs) = 0) :
    eraseMatches width (c :: cs) = c :: eraseMatches width cs := by
  rw [eraseMatches, eraseFrom]
  simp only [h]
  rw [eraseFrom_seen]
  rfl

end BookMarkup.Text
