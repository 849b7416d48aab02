import BookMarkup.Text.Blank
import BookMarkup.Text.Escape

/-!
Tokens: the pieces into which a marked-up text falls, and the flaws of a text that does not fall
into tokens.
-/

namespace BookMarkup

/-- Items read in order up to the end of a text, or up to the first flaw in it. -/
structure Readout (ε α : Type) where
  items : List α
  flaw : Option ε
  deriving DecidableEq, Repr

/-- The first item with a property, unless a flaw comes before it. -/
def Readout.find? (r : Readout ε α) (p : α → Bool) : Except ε (Option α) :=
  match r.items.find? p, r.flaw with
  | some a, _ => .ok (some a)
  | none, some flaw => .error flaw
  | none, none => .ok none

/-- The inside of a start tag: the name of the element, and what follows it up to the end of the
tag. -/
structure Tag where
  name : String
  body : List Char
  deriving DecidableEq, Repr

inductive Token
  | startTag (tag : Tag)
  | emptyTag (tag : Tag)
  | endTag (name : String)
  | text (characters : String)
  | reference (name : String)
  | cdata (characters : String)
  | comment (characters : String)
  | instruction (target data : String)
  | declaration (tag : Tag)
  | doctype
  deriving DecidableEq, Repr

inductive Token.Flaw
  | unknownMarkup
  | openInstruction
  | openComment
  | openDoctype
  | openCData
  | openTag
  | openReference
  | namelessDoctype
  | strayEnd (found : String)
  | otherEnd (expected found : String)
  deriving DecidableEq, Repr

def Token.Flaw.message : Token.Flaw → String
  | .unknownMarkup => "syntax error: unknown or missed symbol in markup"
  | .openInstruction =>
    "syntax error: processing instruction or xml declaration not closed: " ++
      "`?>` not found before end of input"
  | .openComment => "syntax error: comment not closed: `-->` not found before end of input"
  | .openDoctype => "syntax error: DOCTYPE not closed: `>` not found before end of input"
  | .openCData => "syntax error: CDATA not closed: `]]>` not found before end of input"
  | .openTag => "syntax error: tag not closed: `>` not found before end of input"
  | .openReference =>
    "ill-formed document: entity or character reference not closed: " ++
      "`;` not found before end of input"
  | .namelessDoctype =>
    "ill-formed document: `<!DOCTYPE>` declaration does not contain a name of a document type"
  | .strayEnd found =>
    "ill-formed document: close tag `</" ++ found ++ ">` does not match any open tag"
  | .otherEnd expected found =>
    "ill-formed document: expected `</" ++ expected ++ ">`, but `</" ++ found ++ ">` was found"

end BookMarkup
