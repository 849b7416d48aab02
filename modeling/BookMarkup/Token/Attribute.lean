import BookMarkup.Token.Basic

/-!
The attributes written in a tag, in the order in which they stand. Places are byte offsets from the
start of the element's name.
-/

namespace BookMarkup

/-- An attribute as written: its value is still escaped. -/
structure Tag.Attribute where
  start : Nat
  key : String
  value : String
  deriving DecidableEq, Repr

namespace Tag.Attribute

inductive Flaw
  | noEquals (place : Nat)
  | repeated (place first : Nat)
  | noValue (place : Nat)
  | unquoted (place : Nat)
  | openQuote (place : Nat) (quote : Char)
  deriving DecidableEq, Repr

def Flaw.message : Flaw → String
  | .noEquals place =>
    s!"position {place}: attribute key must be directly followed by `=` or space"
  | .repeated place first =>
    s!"position {place}: duplicated attribute, previous declaration at position {first}"
  | .noValue place => s!"position {place}: `=` must be followed by an attribute value"
  | .unquoted place =>
    s!"position {place}: attribute value must be enclosed in `\"` or `'`"
  | .openQuote place quote =>
    s!"position {place}: missing closing quote `{quote}` in attribute value"

/-- The characters of a key after its first one: up to an equals sign or a blank. -/
def inKey (c : Char) : Bool :=
  c != '=' && !Text.isMarkupBlank c

/-- What follows the equals sign that belongs to a key, given what follows the key. -/
def afterEquals (size : Nat) (rest : List Char) : Except Flaw (List Char) :=
  match rest.dropWhile Text.isMarkupBlank with
  | [] => .error (.noEquals size)
  | '=' :: rest => .ok rest
  | rest => .error (.noEquals (size - Text.byteLength rest))

/-- The quoted value after an equals sign, and what follows it. -/
def quotedValue (size : Nat) (rest : List Char) : Except Flaw (List Char × List Char) :=
  match rest.dropWhile Text.isMarkupBlank with
  | [] => .error (.noValue size)
  | quote :: rest =>
    if quote = '"' ∨ quote = '\x27' then
      match rest.dropWhile (· != quote) with
      | [] => .error (.openQuote size quote)
      | _ :: after => .ok (rest.takeWhile (· != quote), after)
    else .error (.unquoted (size - Text.byteLength (quote :: rest)))

/-- The first attribute in the rest of a tag of `size` bytes, with what follows it. `first?` gives the
place where a key was used before, if it must not be used again. -/
def next? (size : Nat) (first? : String → Option Nat) (rest : List Char) :
    Except Flaw (Option (Attribute × List Char)) :=
  match rest.dropWhile Text.isMarkupBlank with
  | [] => .ok none
  | c :: cs => do
    let start := size - Text.byteLength (c :: cs)
    let key := String.ofList (c :: cs.takeWhile inKey)
    let rest ← afterEquals size (cs.dropWhile inKey)
    match first? key with
    | some first => throw (.repeated start first)
    | none =>
      let (value, rest) ← quotedValue size rest
      return some (⟨start, key, String.ofList value⟩, rest)

/-- Reads at most `count` attributes. In a `strict` tag no key is used twice; `earlier` holds the
attributes already read. -/
def readFrom (size : Nat) (strict : Bool) :
    (count : Nat) → (earlier : List Attribute) → List Char → Readout Flaw Attribute
  | 0, earlier, _ => ⟨earlier.reverse, none⟩
  | count + 1, earlier, rest =>
    let first? key :=
      if strict then (earlier.find? (·.key == key)).map Attribute.start else none
    match next? size first? rest with
    | .error flaw => ⟨earlier.reverse, some flaw⟩
    | .ok none => ⟨earlier.reverse, none⟩
    | .ok (some (a, rest)) => readFrom size strict count (a :: earlier) rest

end Tag.Attribute

namespace Tag

/-- The attributes of a tag. Each takes up characters, so that there are no more attributes than
characters. -/
def attributes (tag : Tag) (strict : Bool) : Readout Attribute.Flaw Attribute :=
  let size := Text.byteLength tag.name.toList + Text.byteLength tag.body
  Attribute.readFrom size strict (tag.body.length + 1) [] tag.body

/-- The value, as written, of the first attribute with a key. Only a flaw before it counts, and a key
used twice is none. -/
def lookup (tag : Tag) (key : String) : Except Attribute.Flaw (Option String) :=
  ((tag.attributes false).find? (·.key == key)).map (Option.map Attribute.value)

end Tag

end BookMarkup
