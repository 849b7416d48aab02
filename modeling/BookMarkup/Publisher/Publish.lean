import BookMarkup.Document.Printer
import BookMarkup.Document.Reader
import BookMarkup.Rule.Book
import BookMarkup.Text.Cut

/-!
Publishing: a text is taken in, rewritten by the rules for books and written again. A final text is
left as it is; a lone paragraph gets an element around it; doctypes are taken out, since the book
schema has its own; a root that is a chapter under another name is called so.
-/

namespace BookMarkup.Publisher

/-- What a publisher settles for all books: the namespace of the published root, the spaces per
level, the mark at the start of a text that is final already, and the element around a lone
paragraph. -/
structure Settings where
  xmlns : String := "http://www.manning.com/schemas/book"
  indent : Nat := 2
  finalMark : String := "<!DOCTYPE html>"
  fragmentTag : String := "preface"
  deriving DecidableEq, Repr

/-- The width of a doctype at the start of a text: its keyword, anything but brackets, at most one
internal subset in square brackets, white space and the closing bracket. Zero if there is none. -/
def doctypeWidth (text : List Char) : Nat :=
  match Text.after? "<!DOCTYPE".toList text with
  | none => 0
  | some rest =>
    let isLoose c := c != '>' && c != '['
    match rest.dropWhile isLoose with
    | '>' :: after => text.length - after.length
    | '[' :: subset =>
      match (subset.dropWhile (· != ']')).tail.dropWhile Text.isSpace with
      | '>' :: after => text.length - after.length
      | _ => 0
    | _ => 0

/-- The text without its doctypes, found from left to right. -/
def withoutDoctypes (text : String) : String :=
  String.ofList (Text.eraseMatches doctypeWidth text.toList)

/-- Whether the text is a lone paragraph and no document. -/
def isFragment (text : String) : Bool :=
  ["<simpara>", "<simpara ", "<para>", "<para "].any fun start =>
    start.toList.isPrefixOf (Text.trimStart text).toList

/-- The text with the fragment's element and an empty title around a lone paragraph. -/
def framed (s : Settings) (text : String) : String :=
  if isFragment text then
    "<" ++ s.fragmentTag ++ "><title/>" ++ text ++ "</" ++ s.fragmentTag ++ ">"
  else text

/-- Whether a root with this tag is a chapter in all but name. -/
def isChapterLike (tag : String) : Bool :=
  tag == "preface" || tag == "appendix"

/-- A taken-in text: one to be handed back as it is, or a document to be rewritten. -/
inductive Intake
  | final (text : String)
  | document (document : Document)
  deriving DecidableEq, Repr

def intake (s : Settings) (text : String) : Except Document.Fault Intake :=
  if s.finalMark.toList.isPrefixOf text.toList then .ok (.final text)
  else
    let stripped := withoutDoctypes (framed s text)
    match Document.parse {} stripped with
    | .error fault => .error fault
    | .ok d =>
      match d.tree.root with
      | none => .ok (.final stripped)
      | some root =>
        let call (n : Node) := if isChapterLike n.name then { n with name := "chapter" } else n
        .ok (.document { d with tree := d.tree.update root call, xmlns := some s.xmlns })

/-- Why a text cannot be published. -/
inductive Fault
  | document (fault : Document.Fault)
  | rule (failure : Rule.Failure)
  deriving DecidableEq, Repr

def documentMessage (fault : Document.Fault) : String :=
  "Document error: " ++ fault.message

/-- The text of a document for the book toolchain, which does not take `standalone="no"`. -/
def print (s : Settings) (d : Document) : String :=
  Text.eraseAll " standalone=\"no\"" ({ indent := s.indent : Layout }.print d)

def publish (s : Settings) (text : String) : Except Fault String :=
  match intake s text with
  | .error fault => .error (.document fault)
  | .ok (.final text) => .ok text
  | .ok (.document d) =>
    match (Rule.runAll Rule.bookRules).run d.tree with
    | .error failure _ => .error (.rule failure)
    | .ok _ tree => .ok (print s { d with tree })

end BookMarkup.Publisher
