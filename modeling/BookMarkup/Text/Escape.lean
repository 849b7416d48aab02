import BookMarkup.Text.Reference

/-!
Writing text so that markup cannot be mistaken for it, and reading attribute values back. In
character data the two angle brackets and the ampersand are written as references, in attribute
values the two quotes as well. Main statement: a written value reads back as the value.
-/

namespace BookMarkup.Text

def escapeDataChar (c : Char) : List Char :=
  match c with
  | '<' => ['&', 'l', 't', ';']
  | '>' => ['&', 'g', 't', ';']
  | '&' => ['&', 'a', 'm', 'p', ';']
  | c => [c]

def escapeValueChar (c : Char) : List Char :=
  match c with
  | '\x27' => ['&', 'a', 'p', 'o', 's', ';']
  | '"' => ['&', 'q', 'u', 'o', 't', ';']
  | c => escapeDataChar c

/-- The written form of character data. -/
def escapeData (s : String) : List Char :=
  s.toList.flatMap escapeDataChar

/-- The written form of an attribute value, without its quotes. -/
def escapeValue (s : String) : List Char :=
  s.toList.flatMap escapeValueChar

/-- The number of bytes that the characters take in UTF-8. -/
def byteLength (cs : List Char) : Nat :=
  cs.foldl (fun n c => n + c.utf8Size) 0

/-- Why an attribute value cannot be read. Places are byte offsets into the value. -/
inductive ValueFlaw
  | unterminated (start size : Nat)
  | number (flaw : Reference.Flaw)
  | unknownName (start stop : Nat) (name : String)
  deriving DecidableEq, Repr

def ValueFlaw.message : ValueFlaw → String
  | .unterminated start size =>
    s!"Error while escaping character at range {start}..{size}: Cannot find ';' after '&'"
  | .number flaw => "invalid character reference: " ++ flaw.message
  | .unknownName start stop name => s!"at {start}..{stop}: unrecognized entity `{name}`"

/-- The character that a reference in an attribute value stands for; the reference begins after the
byte `start`. -/
def resolveInValue (start : Nat) (name : List Char) : Except ValueFlaw Char :=
  match name with
  | '#' :: code =>
    match Reference.numberInValue code with
    | .ok c => .ok c
    | .error flaw => .error (.number flaw)
  | name =>
    match Reference.named name with
    | some c => .ok c
    | none =>
      .error (.unknownName (start + 1) (start + 1 + byteLength name) (String.ofList name))

/-- Reads a value from the byte `place` on. `seen` is what has been read, the last character first;
inside a reference `reference` holds the place of its ampersand and its characters so far, the last
one first. -/
def unescapeFrom (size place : Nat) (seen : List Char) (reference : Option (Nat × List Char)) :
    List Char → Except ValueFlaw (List Char)
  | [] =>
    match reference with
    | none => .ok seen.reverse
    | some (start, _) => .error (.unterminated start size)
  | c :: cs =>
    match reference with
    | none =>
      if c = '&' then unescapeFrom size (place + 1) seen (some (place, [])) cs
      else unescapeFrom size (place + c.utf8Size) (c :: seen) none cs
    | some (start, name) =>
      if c = ';' then
        match resolveInValue start name.reverse with
        | .ok r => unescapeFrom size (place + 1) (r :: seen) none cs
        | .error flaw => .error flaw
      else if c = '&' then .error (.unterminated start size)
      else unescapeFrom size (place + c.utf8Size) seen (some (start, c :: name)) cs

/-- The value that its written form stands for. -/
def unescape (s : String) : Except ValueFlaw String :=
  (unescapeFrom (byteLength s.toList) 0 [] none s.toList).map String.ofList

/-- Inside a reference, its name is read up to the semicolon, and then it is resolved. -/
theorem unescapeFrom_reference {name : List Char} (size start : Nat)
    (seen before rest : List Char) (hp : ∀ x ∈ name, x ≠ ';' ∧ x ≠ '&') (place : Nat) :
    ∃ place', unescapeFrom size place seen (some (start, before)) (name ++ ';' :: rest) =
      match resolveInValue start (before.reverse ++ name) with
      | .ok c => unescapeFrom size place' (c :: seen) none rest
      | .error flaw => .error flaw := by
  induction name generalizing before place with
  | nil => exact ⟨place + 1, by simp [unescapeFrom]⟩
  | cons x name ih =>
    obtain ⟨hx₁, hx₂⟩ := hp x List.mem_cons_self
    obtain ⟨place', h⟩ :=
      ih (x :: before) (fun y hy => hp y (List.mem_cons_of_mem x hy)) (place + x.utf8Size)
    exact ⟨place', by simpa [unescapeFrom, hx₁, hx₂] using h⟩

theorem unescapeFrom_escapeValue (size : Nat) (cs seen : List Char) (place : Nat) :
    unescapeFrom size place seen none (cs.flatMap escapeValueChar) = .ok (seen.reverse ++ cs) := by
  induction cs generalizing seen place with
  | nil => simp [unescapeFrom]
  | cons c cs ih =>
    have reference (name : List Char) (h : escapeValueChar c = '&' :: (name ++ [';']))
        (hp : ∀ x ∈ name, x ≠ ';' ∧ x ≠ '&') (hr : resolveInValue place name = .ok c) :
        unescapeFrom size place seen none ((c :: cs).flatMap escapeValueChar) =
          .ok (seen.reverse ++ c :: cs) := by
      obtain ⟨place', h'⟩ := unescapeFrom_reference size place seen []
        (cs.flatMap escapeValueChar) hp (place + 1)
      simp only [List.reverse_nil, List.nil_append, hr] at h'
      simp only [List.flatMap_cons, h, List.cons_append, List.append_assoc, List.nil_append,
        unescapeFrom, if_true]
      rw [h', ih]
      simp
    by_cases h₁ : c = '<'
    · subst h₁; exact reference ['l', 't'] rfl (by simp) rfl
    by_cases h₂ : c = '>'
    · subst h₂; exact reference ['g', 't'] rfl (by simp) rfl
    by_cases h₃ : c = '&'
    · subst h₃; exact reference ['a', 'm', 'p'] rfl (by simp) rfl
    by_cases h₄ : c = '\x27'
    · subst h₄; exact reference ['a', 'p', 'o', 's'] rfl (by simp) rfl
    by_cases h₅ : c = '"'
    · subst h₅; exact reference ['q', 'u', 'o', 't'] rfl (by simp) rfl
    have plain : escapeValueChar c = [c] := by simp_all [escapeValueChar, escapeDataChar]
    simp only [List.flatMap_cons, plain, List.cons_append, List.nil_append, unescapeFrom, h₃,
      if_false]
    rw [ih]
    simp

/-- A written value reads back as the value. -/
theorem unescape_escapeValue (s : String) : unescape (String.ofList (escapeValue s)) = .ok s := by
  rw [unescape, String.toList_ofList, escapeValue, unescapeFrom_escapeValue]
  simp [Except.map]

end BookMarkup.Text
