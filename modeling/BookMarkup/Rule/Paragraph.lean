import BookMarkup.Rule.Basic
import BookMarkup.Text.Blank

/-!
Rules for what a paragraph holds: header cells and quotations get one around their content, and an
attribution becomes a line of plain text.
-/

namespace BookMarkup.Rule

open BookMarkup.Tree

/-- Wraps the content of a header cell in a paragraph, unless it is one already. -/
def wrapCell (entry : NodeId) : Edit Nat := do
  let children ← Edit.ask (·.childIds entry)
  let t ← get
  let wrapped :=
    match children with
    | [only] => t.tag? only == some "para"
    | _ => false
  if wrapped then return 0
  else
    let para ← Edit.create (Node.element "para")
    children.forM (Edit.appendChild para)
    Edit.appendChild entry para
    return 1

def wrapHeaderCells : Rule where
  name := "wrap-header-cells"
  apply := do Edit.tally wrapCell (← Edit.select "thead/row/entry")

/-- Replaces the children of an attribution by their texts, trimmed and joined by commas; blank ones
are left out. -/
def flattenAttribution (attribution : NodeId) : Edit Nat := do
  let children ← Edit.ask (·.childIds attribution)
  let texts ← children.mapM fun child => Edit.ask (·.textContent child)
  let parts := (texts.map Text.trim).filter (· ≠ "")
  children.forM Edit.remove
  if parts.isEmpty then return 1
  else
    let text ← Edit.create (Node.text (", ".intercalate parts))
    Edit.appendChild attribution text
    return 1

def flattenAttributions : Rule where
  name := "flatten-attributions"
  apply := do Edit.tally flattenAttribution (← Edit.select "attribution")

/-- Puts a quotation into a new paragraph, unless it is in one or has nothing around it. -/
def wrapQuote (quote : NodeId) : Edit Nat := do
  match ← Edit.ask (·.parent? quote) with
  | none => return 0
  | some parent =>
    if (← get).tag? parent == some "para" then return 0
    else
      let para ← Edit.create (Node.element "para")
      Edit.insertBefore quote para
      Edit.appendChild para quote
      return 1

def wrapBlockquotes : Rule where
  name := "wrap-blockquotes"
  apply := do Edit.tally wrapQuote (← Edit.select "blockquote")

end BookMarkup.Rule
