import BookMarkup.Text.Cut
import BookMarkup.Text.Printable
import BookMarkup.Tree.Walk

/-!
Selectors: paths of element names such as `formalpara/para/screen|programlisting`. The last step
names the element, the steps before it its parent, grandparent and so on; a step may list several
names. A selector is held against the tree as it stands.
-/

namespace BookMarkup

/-- The steps of a path, each with the names that it admits. -/
structure Selector where
  steps : List (List String)
  deriving DecidableEq, Repr

namespace Selector

/-- A text that is no path: some step has a blank name. -/
structure Invalid where
  path : String
  deriving DecidableEq, Repr

def Invalid.message (i : Invalid) : String :=
  "Invalid selector: " ++ Text.quoted i.path

/-- The names in a text, step by step, trimmed but not yet checked. -/
def names (path : String) : List (List String) :=
  (Text.pieces (· == '/') path.toList).map fun step =>
    (Text.pieces (· == '|') step).map fun name => Text.trim (String.ofList name)

def parse (path : String) : Except Invalid Selector :=
  let steps := names path
  if steps.any (·.contains "") then .error ⟨path⟩ else .ok ⟨steps⟩

/-- Whether the node and its ancestors bear the names of the steps, the last step first. -/
def climbs (t : Tree) : (steps : List (List String)) → Option NodeId → Bool
  | [], _ => true
  | _ :: _, none => false
  | step :: steps, some id =>
    match t.get? id with
    | none => false
    | some n => n.isElement && step.contains n.name && climbs t steps n.parent

def accepts (s : Selector) (t : Tree) (id : NodeId) : Bool :=
  climbs t s.steps.reverse (some id)

/-- The live nodes that the selector accepts, in document order. -/
def select (s : Selector) (t : Tree) : List NodeId :=
  t.find fun n => s.accepts t n.id

end Selector

end BookMarkup
