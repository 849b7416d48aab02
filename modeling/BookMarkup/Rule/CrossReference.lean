import BookMarkup.Rule.Basic
import BookMarkup.Text.Uppercase

/-!
Labels of cross-references. A reference is printed as a bare number, so that the word for what it
refers to is written into the text right before it.
-/

namespace BookMarkup.Rule

open BookMarkup.Tree

/-- The word for a target by its tag. References without a target read as sections. -/
def labelFor (tag : Option String) : String :=
  match tag with
  | none => "Section"
  | some "example" => "Listing"
  | some "informalexample" => "Listing"
  | some tag => Text.capitalize tag

/-- The first node in the list with the given `id` attribute. -/
def target? (nodes : List Node) (id : String) : Option Node :=
  nodes.find? fun n => n.attribute? "id" == some id

/-- Writes the label before a reference with a target name; `nodes` are the nodes to be found. -/
def labelReference (nodes : List Node) (xref : NodeId) : Edit Nat := do
  match (← get).attribute? xref "linkend" with
  | none => return 0
  | some linkend =>
    let label := labelFor ((target? nodes linkend).bind Node.tag?)
    let text ← Edit.create (Node.text (label ++ " "))
    Edit.insertBefore xref text
    return 1

def labelCrossReferences : Rule where
  name := "label-cross-references"
  apply := do
    let nodes := (← get).live
    Edit.tally (labelReference nodes) (← Edit.select "xref")

end BookMarkup.Rule
