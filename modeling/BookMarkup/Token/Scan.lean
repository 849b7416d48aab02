import BookMarkup.Text.Cut
import BookMarkup.Token.Basic

/-!
Cutting a text into tokens. Character data reaches to the next angle bracket or ampersand; what an
angle bracket opens is told by the character after it. End tags have to name the element that was
opened last, prefix included.
-/

namespace BookMarkup.Token

/-- A flaw, with the part of the text that begins where the flaw is. -/
structure Spot where
  flaw : Flaw
  rest : List Char
  deriving DecidableEq, Repr

/-- A token and the text after it. -/
abbrev Lexed := Except Spot (Token × List Char)

/-- The text up to the first closing bracket outside quotes, and what follows that bracket. `quote`
is the quote that is open, and `seen` holds the characters passed, the last one first. -/
def tagEnd (quote : Option Char) (seen : List Char) : List Char → Option (List Char × List Char)
  | [] => none
  | c :: cs =>
    match quote with
    | some q => tagEnd (if c = q then none else some q) (c :: seen) cs
    | none =>
      if c = '>' then some (seen.reverse, cs)
      else tagEnd (if c = '"' ∨ c = '\x27' then some c else none) (c :: seen) cs

/-- The inside of a doctype after its keyword and the text from its closing bracket on. Brackets
inside the doctype come in pairs; `depth` of them are open. -/
def doctypeEnd (depth : Nat) (seen : List Char) : List Char → Option (List Char × List Char)
  | [] => none
  | c :: cs =>
    if c = '>' then
      match depth with
      | 0 => some (seen.reverse, c :: cs)
      | depth + 1 => doctypeEnd depth (c :: seen) cs
    else doctypeEnd (if c = '<' then depth + 1 else depth) (c :: seen) cs

/-- The name and the rest of the inside of a tag. -/
def splitName (inside : List Char) : Tag where
  name := String.ofList (inside.takeWhile (!Text.isMarkupBlank ·))
  body := inside.dropWhile (!Text.isMarkupBlank ·)

/-- A tag whose inside ends with a slash is an empty tag. -/
def ofInside (inside : List Char) : Token :=
  if inside.getLast? = some '/' then .emptyTag (splitName inside.dropLast)
  else .startTag (splitName inside)

/-- The name in an end tag is all that stands in it but the blanks at its end. A name of blanks alone
keeps them. -/
def endName (inside : List Char) : String :=
  match inside.reverse.dropWhile Text.isMarkupBlank with
  | [] => String.ofList inside
  | name => String.ofList name.reverse

/-- A processing instruction whose target is `xml` is a declaration. -/
def ofInstruction (inside : List Char) : Token :=
  let tag := splitName inside
  if tag.name = "xml" then .declaration tag
  else .instruction tag.name (Text.trimStart (String.ofList tag.body))

/-- What follows the keyword of a doctype, in whatever case it is written. -/
def afterKeyword? (text : List Char) : Option (List Char) :=
  let keyword := ['D', 'O', 'C', 'T', 'Y', 'P', 'E']
  if (text.take 7).map Char.toUpper = keyword then some (text.drop 7) else none

/-- The markup after `<!`, where `whole` is the text from its bracket on. -/
def declared (whole : List Char) : List Char → Lexed
  | '[' :: rest =>
    match (Text.after? ['C', 'D', 'A', 'T', 'A', '['] rest).bind (Text.cut? [']', ']', '>']) with
    | some (inside, rest) => .ok (.cdata (String.ofList inside), rest)
    | none => .error ⟨.openCData, whole⟩
  | '-' :: rest =>
    match (Text.after? ['-'] rest).bind (Text.cut? ['-', '-', '>']) with
    | some (inside, rest) => .ok (.comment (String.ofList inside), rest)
    | none => .error ⟨.openComment, whole⟩
  | c :: rest =>
    if c = 'D' ∨ c = 'd' then
      match (afterKeyword? (c :: rest)).bind (doctypeEnd 0 []) with
      | some (inside, close) =>
        if inside.all Text.isMarkupBlank then .error ⟨.namelessDoctype, close⟩
        else .ok (.doctype, close.tail)
      | none => .error ⟨.openDoctype, whole⟩
    else .error ⟨.unknownMarkup, whole⟩
  | [] => .error ⟨.unknownMarkup, whole⟩

/-- The markup after an opening bracket, where `whole` is the text from that bracket on. -/
def markup (whole : List Char) : List Char → Lexed
  | '!' :: rest => declared whole rest
  | '?' :: '>' :: _ => .error ⟨.openInstruction, whole⟩
  | '?' :: rest =>
    match Text.cut? ['?', '>'] rest with
    | some (inside, rest) => .ok (ofInstruction inside, rest)
    | none => .error ⟨.openInstruction, whole⟩
  | '/' :: rest =>
    match tagEnd none [] rest with
    | some (inside, rest) => .ok (.endTag (endName inside), rest)
    | none => .error ⟨.openTag, whole⟩
  | rest =>
    match tagEnd none [] rest with
    | some (inside, rest) => .ok (ofInside inside, rest)
    | none => .error ⟨.openTag, whole⟩

/-- The reference after an ampersand, where `whole` is the text from the ampersand on. -/
def referred (whole rest : List Char) : Lexed :=
  let inName c := c != ';' && c != '&' && c != '<'
  match rest.dropWhile inName with
  | ';' :: after => .ok (.reference (String.ofList (rest.takeWhile inName)), after)
  | _ => .error ⟨.openReference, whole⟩

/-- The characters that belong to character data as they stand. -/
def isPlain (c : Char) : Bool :=
  c != '<' && c != '&'

/-- The first token of a text that begins with `c`. -/
def next (c : Char) (cs : List Char) : Lexed :=
  if c = '<' then markup (c :: cs) cs
  else if c = '&' then referred (c :: cs) cs
  else .ok (.text (String.ofList (c :: cs.takeWhile isPlain)), cs.dropWhile isPlain)

/-- The elements open after a token, the innermost first. -/
def nest (opened : List String) : Token → Except Flaw (List String)
  | .startTag tag => .ok (tag.name :: opened)
  | .endTag found =>
    match opened with
    | [] => .error (.strayEnd found)
    | expected :: opened =>
      if expected = found then .ok opened else .error (.otherEnd expected found)
  | _ => .ok opened

/-- Reads at most `count` tokens. `opened` names the elements that are open, and `earlier` holds the
tokens read so far, the last one first. -/
def scanFrom : (count : Nat) → (opened : List String) → (earlier : List Token) → List Char →
    Readout Spot Token
  | 0, _, earlier, _ => ⟨earlier.reverse, none⟩
  | _ + 1, _, earlier, [] => ⟨earlier.reverse, none⟩
  | count + 1, opened, earlier, c :: cs =>
    match next c cs with
    | .error spot => ⟨earlier.reverse, some spot⟩
    | .ok (token, rest) =>
      match nest opened token with
      | .error flaw => ⟨earlier.reverse, some ⟨flaw, c :: cs⟩⟩
      | .ok opened => scanFrom count opened (token :: earlier) rest

/-- The tokens of a text. Each takes up characters, so that there are no more of them than
characters. -/
def scan (text : List Char) : Readout Spot Token :=
  scanFrom text.length [] [] text

/-- A byte order mark at the start is no part of the text. -/
def withoutMark (text : List Char) : List Char :=
  match text with
  | '\ufeff' :: rest => rest
  | text => text

end BookMarkup.Token
