/-!
References: the part between `&` and `;`, which stands for one character. Five characters have
names; any character can be given by its code point after a number sign. Character data and
attribute values read the code point by rules of their own: in character data one plus sign may
lead the digits, a capital `X` marks hexadecimal as well, and the code point zero is allowed. The
digits are decimal or hexadecimal, and their number stays below two to the thirty-second.
-/

namespace BookMarkup.Text

inductive Numeral.Flaw
  | empty
  | badDigit
  | tooLarge
  deriving DecidableEq, Repr

def Numeral.Flaw.message : Numeral.Flaw → String
  | .empty => "cannot parse integer from empty string"
  | .badDigit => "invalid digit found in string"
  | .tooLarge => "number too large to fit in target type"

/-- The value of a digit, upper and lower case alike, in a radix of at most thirty-six. -/
def digitValue (radix : Nat) (c : Char) : Option Nat :=
  let value :=
    if '0' ≤ c ∧ c ≤ '9' then c.toNat - '0'.toNat
    else if 'a' ≤ c ∧ c ≤ 'z' then c.toNat - 'a'.toNat + 10
    else if 'A' ≤ c ∧ c ≤ 'Z' then c.toNat - 'A'.toNat + 10
    else radix
  if value < radix then some value else none

/-- Reads on from `value`. Of two faults the one further left is reported; a character that is no
digit comes before the overflow that a multiplication at its place causes. -/
def Numeral.readFrom (radix value : Nat) : List Char → Except Numeral.Flaw Nat
  | [] => .ok value
  | c :: cs =>
    match digitValue radix c with
    | none => .error .badDigit
    | some d =>
      if value * radix + d < 2 ^ 32 then readFrom radix (value * radix + d) cs
      else .error .tooLarge

def Numeral.read (radix : Nat) : List Char → Except Numeral.Flaw Nat
  | [] => .error .empty
  | ['+'] => .error .badDigit
  | '+' :: digits => readFrom radix 0 digits
  | digits => readFrom radix 0 digits

namespace Reference

/-- The five characters that have a name. -/
def named (name : List Char) : Option Char :=
  match String.ofList name with
  | "lt" => some '<'
  | "gt" => some '>'
  | "amp" => some '&'
  | "apos" => some '\x27'
  | "quot" => some '"'
  | _ => none

/-- The character at a code point; surrogates and numbers past the last plane have none. -/
def atCodePoint (n : Nat) : Option Char :=
  if n.isValidChar then some (Char.ofNat n) else none

/-- A reference in character data. -/
def inData (name : List Char) : Option Char :=
  match name with
  | '#' :: code =>
    let number :=
      match code with
      | 'x' :: digits => Numeral.read 16 digits
      | 'X' :: digits => Numeral.read 16 digits
      | digits => Numeral.read 10 digits
    number.toOption.bind atCodePoint
  | name => named name

/-- Why a number sign in an attribute value gives no character. -/
inductive Flaw
  | signed
  | numeral (flaw : Numeral.Flaw)
  | zero
  | notACharacter (number : Nat)
  deriving DecidableEq, Repr

def Flaw.message : Flaw → String
  | .signed => "unexpected number sign"
  | .numeral flaw => flaw.message
  | .zero => "0x0 character is not permitted in XML"
  | .notACharacter number => s!"`{number}` is not a valid codepoint"

/-- A reference by code point in an attribute value, without its number sign. -/
def numberInValue (code : List Char) : Except Flaw Char :=
  let (radix, digits) :=
    match code with
    | 'x' :: digits => (16, digits)
    | digits => (10, digits)
  match digits with
  | '+' :: _ => .error .signed
  | '-' :: _ => .error .signed
  | digits =>
    match Numeral.read radix digits with
    | .error flaw => .error (.numeral flaw)
    | .ok 0 => .error .zero
    | .ok number =>
      match atCodePoint number with
      | some c => .ok c
      | none => .error (.notACharacter number)

end Reference

end BookMarkup.Text
