/-!
Three notions of a blank character. Character data is blank by Unicode's property `White_Space`;
markup separates names and attributes by four characters only; a list of tokens such as the value
of `role` is separated by five.
-/

namespace BookMarkup.Text

/-- The characters with Unicode's property `White_Space`. -/
def isSpace (c : Char) : Bool :=
  let n := c.toNat
  (0x9 ≤ n && n ≤ 0xD) || n == 0x20 || n == 0x85 || n == 0xA0 || n == 0x1680 ||
    (0x2000 ≤ n && n ≤ 0x200A) || n == 0x2028 || n == 0x2029 || n == 0x202F || n == 0x205F ||
    n == 0x3000

/-- The blanks of markup: space, tab, line feed and carriage return. -/
def isMarkupBlank (c : Char) : Bool :=
  c == ' ' || c == '\t' || c == '\n' || c == '\r'

/-- What separates the words of a token list: the blanks of markup and the form feed. -/
def isWordBreak (c : Char) : Bool :=
  isMarkupBlank c || c == '\x0c'

/-- A blank text has no other characters than white space; the empty text is blank. -/
def isBlank (s : String) : Bool :=
  s.toList.all isSpace

/-- The text without the white space at its start. -/
def trimStart (s : String) : String :=
  String.ofList (s.toList.dropWhile isSpace)

/-- The text without the white space at either end. -/
def trim (s : String) : String :=
  String.ofList ((s.toList.dropWhile isSpace).reverse.dropWhile isSpace).reverse

theorem isSpace_of_isWordBreak {c : Char} (h : isWordBreak c) : isSpace c := by
  simp only [isWordBreak, isMarkupBlank, Bool.or_eq_true, beq_iff_eq] at h
  obtain (((rfl | rfl) | rfl) | rfl) | rfl := h <;> decide

theorem isWordBreak_of_isMarkupBlank {c : Char} (h : isMarkupBlank c) : isWordBreak c := by
  simp [isWordBreak, h]

theorem isSpace_of_isMarkupBlank {c : Char} (h : isMarkupBlank c) : isSpace c :=
  isSpace_of_isWordBreak (isWordBreak_of_isMarkupBlank h)

end BookMarkup.Text
