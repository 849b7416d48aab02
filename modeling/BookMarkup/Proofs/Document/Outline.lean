import BookMarkup.Document.Reader
import BookMarkup.Proofs.Token.Nesting

/-!
What stands in a text, told without reading it. The tokens of a text make an outline of it, in which
each run of character data has all of its characters. Blank runs are taken out of the outline by what
stands in the element around them, without a look at what becomes of the runs before.
-/

namespace BookMarkup

/-- Whether space is preserved in an element, by the attribute as it is written in the tag, or else as
in the element around it. -/
def Tag.preserves (tag : Tag) (around : Bool) : Bool :=
  match tag.lookup "xml:space" with
  | .ok (some "preserve") => true
  | .ok (some "default") => false
  | _ => around

/-- What stands in an element, or outside of all of them: runs of character data, nodes that are one
token, and elements, each with what comes after it. -/
inductive Outline
  | nil
  | run (characters : String) (rest : Outline)
  | leaf (content : Node) (rest : Outline)
  | element (tag : Tag) (inner rest : Outline)
  deriving DecidableEq, Repr

namespace Outline

def prepend (characters : String) (c : Outline) : Outline :=
  if characters = "" then c
  else
    match c with
    | .run more rest => .run (characters ++ more) rest
    | c => .run characters c

def isRun : Outline → Bool
  | .run _ .nil => true
  | _ => false

def beginsVisibly : Outline → Bool
  | .run characters _ => !Text.isBlank characters
  | _ => false

def keepsBlanks (o : Reader.Options) (preserves : Bool) (inner : Outline) : Bool :=
  !o.dropBlanks || preserves || inner.isRun || inner.beginsVisibly

/-- What is left when blank runs are dropped; those that are not in a further element are kept if
`keeps`. -/
def kept (o : Reader.Options) (preserves keeps : Bool) : Outline → Outline
  | .nil => .nil
  | .run characters rest =>
    if keeps || !Text.isBlank characters then .run characters (rest.kept o preserves keeps)
    else rest.kept o preserves keeps
  | .leaf content rest => .leaf content (rest.kept o preserves keeps)
  | .element tag inner rest =>
    .element tag (inner.kept o (tag.preserves preserves)
      (inner.keepsBlanks o (tag.preserves preserves))) (rest.kept o preserves keeps)

def elements : Outline → Outline
  | .nil => .nil
  | .run _ rest => rest.elements
  | .leaf _ rest => rest.elements
  | .element tag inner rest => .element tag inner rest.elements

end Outline

/-- What a token does to the outlines of what comes after it: the first one is of the innermost element
that is open, the last one is of what is outside of all. -/
def Token.precede : Token → List Outline → List Outline
  | .startTag tag, inner :: rest :: around => .element tag inner rest :: around
  | .emptyTag tag, rest :: around => .element tag .nil rest :: around
  | .endTag _, around => .nil :: around
  | .text characters, around => around.modifyHead (Outline.prepend characters)
  | .reference name, around =>
    around.modifyHead (Outline.prepend
      ((Text.Reference.inData name.toList).elim "" String.singleton))
  | .cdata characters, rest :: around => .leaf (Node.cdata characters) rest :: around
  | .comment characters, rest :: around => .leaf (Node.comment characters) rest :: around
  | .instruction target data, rest :: around => .leaf (Node.instruction target data) rest :: around
  | _, around => around

namespace Outline

/-- The runs are as long as can be: none is empty, and none comes right after another one. -/
def Parted : Outline → Prop
  | .nil => True
  | .run characters rest => characters ≠ "" ∧ (∀ more after, rest ≠ .run more after) ∧ rest.Parted
  | .leaf _ rest => rest.Parted
  | .element _ inner rest => inner.Parted ∧ rest.Parted

/-- The outlines of tokens that may close elements which they do not open. -/
def ofRest (tokens : List Token) : List Outline :=
  tokens.foldr Token.precede [.nil]

def ofText (text : String) : Outline :=
  (ofRest (Token.scan (Token.withoutMark text.toList)).items).headD .nil

end Outline

namespace Outline

def isMarkup : Outline → Bool
  | .leaf .. | .element .. => true
  | _ => false

section Prepend

variable {o : Reader.Options} {s : String} {c : Outline}

@[simp] theorem prepend_empty (c : Outline) : prepend "" c = c := rfl

theorem prepend_prepend (s s' : String) (c : Outline) :
    prepend s (prepend s' c) = prepend (s ++ s') c := by
  by_cases hs : s = ""
  · simp [hs]
  · by_cases hs' : s' = ""
    · simp [hs']
    · have hne : s ++ s' ≠ "" := by simp [hs]
      cases c <;> simp [prepend, hs, hs', hne, String.append_assoc]

theorem prepend_of_markup (hs : s ≠ "") (hc : c = .nil ∨ c.isMarkup = true) :
    prepend s c = .run s c := by
  cases c with
  | run => simp [isMarkup] at hc
  | nil => simp [prepend, hs]
  | leaf => simp [prepend, hs]
  | element => simp [prepend, hs]

theorem keepsBlanks_of_markup (hc : c = .nil ∨ c.isMarkup = true) (p : Bool) :
    c.keepsBlanks o p = (!o.dropBlanks || p) := by
  cases c with
  | run => simp [isMarkup] at hc
  | nil => simp [keepsBlanks, isRun, beginsVisibly]
  | leaf => simp [keepsBlanks, isRun, beginsVisibly]
  | element => simp [keepsBlanks, isRun, beginsVisibly]

@[simp] theorem elements_prepend (s : String) (c : Outline) : (prepend s c).elements = c.elements := by
  by_cases hs : s = ""
  · rw [hs, prepend_empty]
  · cases c <;> simp [prepend, hs, elements]

theorem modifyHead_prepend_empty (cs : List Outline) : cs.modifyHead (prepend "") = cs := by
  cases cs <;> rfl

theorem modifyHead_prepend (s s' : String) (cs : List Outline) :
    (cs.modifyHead (prepend s')).modifyHead (prepend s) = cs.modifyHead (prepend (s ++ s')) := by
  cases cs with
  | nil => rfl
  | cons c cs => simp only [List.modifyHead_cons, prepend_prepend]

theorem Parted.prepend (h : c.Parted) (s : String) : (prepend s c).Parted := by
  by_cases hs : s = ""
  · rwa [hs, prepend_empty]
  · cases c with
    | run more rest =>
        have hne : s ++ more ≠ "" := by simp [hs]
        simpa [Outline.prepend, hs, Parted, hne] using h.2
    | nil => simp [Outline.prepend, hs, Parted]
    | leaf => simpa [Outline.prepend, hs, Parted] using h
    | element => simpa [Outline.prepend, hs, Parted] using h

end Prepend

theorem parted_precede {token : Token} {outlines : List Outline} (h : ∀ c ∈ outlines, c.Parted) :
    ∀ c ∈ token.precede outlines, c.Parted := by
  have prepended (s : String) : ∀ c ∈ outlines.modifyHead (prepend s), c.Parted := by
    cases outlines with
    | nil => simp
    | cons c around =>
        rw [List.forall_mem_cons] at h
        simpa using ⟨h.1.prepend s, h.2⟩
  cases token with
  | text characters => exact prepended characters
  | reference name => exact prepended _
  | startTag tag =>
      rcases outlines with _ | ⟨inner, _ | ⟨rest, around⟩⟩
      · exact h
      · exact h
      · simp only [List.forall_mem_cons] at h
        simpa [Token.precede, Parted] using ⟨⟨h.1, h.2.1⟩, h.2.2⟩
  | endTag name => simpa [Token.precede, Parted] using h
  | declaration => exact h
  | doctype => exact h
  | emptyTag | cdata | comment | instruction =>
      cases outlines with
      | nil => exact h
      | cons rest around => simpa [Token.precede, Parted] using h

theorem parted_ofRest (tokens : List Token) : ∀ c ∈ ofRest tokens, c.Parted := by
  induction tokens with
  | nil => simp [ofRest, Parted]
  | cons token tokens ih => exact parted_precede ih

theorem parted_ofText (text : String) : (ofText text).Parted := by
  rw [ofText]
  cases hc : ofRest (Token.scan (Token.withoutMark text.toList)).items with
  | nil => trivial
  | cons c around => exact parted_ofRest _ c (hc ▸ List.mem_cons_self)

/-- Nested tokens are told by themselves: they make something of what comes after them where they
stand, and nothing of what comes after the elements around. -/
theorem exists_foldr_precede {n : Nat} {tokens : List Token} (h : Token.Nested n tokens) :
    ∃ f : Outline → Outline, ∀ c around, tokens.foldr Token.precede (c :: around) = f c :: around := by
  induction h with
  | nil => exact ⟨id, fun _ _ => rfl⟩
  | @leaf _ token tokens hb he _ ih =>
      obtain ⟨f, hf⟩ := ih
      obtain ⟨g, hg⟩ : ∃ g : Outline → Outline, ∀ c around,
          token.precede (c :: around) = g c :: around := by
        cases token with
        | startTag => simp [Token.begins] at hb
        | emptyTag => simp [Token.begins] at hb
        | endTag => simp [Token.isEnd] at he
        | text characters => exact ⟨prepend characters, fun _ _ => rfl⟩
        | reference name => exact ⟨prepend _, fun _ _ => rfl⟩
        | cdata characters => exact ⟨.leaf (Node.cdata characters), fun _ _ => rfl⟩
        | comment characters => exact ⟨.leaf (Node.comment characters), fun _ _ => rfl⟩
        | instruction target data => exact ⟨.leaf (Node.instruction target data), fun _ _ => rfl⟩
        | declaration => exact ⟨id, fun _ _ => rfl⟩
        | doctype => exact ⟨id, fun _ _ => rfl⟩
      exact ⟨g ∘ f, fun c around => by rw [List.foldr_cons, hf, hg, Function.comp]⟩
  | empty tag _ ih =>
      obtain ⟨f, hf⟩ := ih
      exact ⟨.element tag .nil ∘ f, fun c around => by rw [List.foldr_cons, hf]; rfl⟩
  | element tag _ _ ih ih' =>
      obtain ⟨f, hf⟩ := ih
      obtain ⟨g, hg⟩ := ih'
      refine ⟨.element tag (f .nil) ∘ g, fun c around => ?_⟩
      rw [List.foldr_cons, List.foldr_append, List.foldr_cons, hg, Token.precede, hf]
      rfl

end Outline

end BookMarkup
