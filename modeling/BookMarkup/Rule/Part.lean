import BookMarkup.Rule.Basic

/-!
Rules for parts. A part holds a title, one introduction and its chapters: loose paragraphs and lists
go into the introduction, and appendices move out of the part to follow it.
-/

namespace BookMarkup.Rule

open BookMarkup.Tree

/-- The children of a part that belong in its introduction. -/
def isIntroContent (tag : Option String) : Bool :=
  tag == some "para" || tag == some "itemizedlist"

/-- The introduction of a part with these children: the first there is, or a new one in the second
place, right after the title. With it comes the number of nodes made. -/
def introOf (part : NodeId) (children : List NodeId) : Edit (NodeId × Nat) := do
  let t ← get
  match children.find? fun id => t.tag? id == some "partintro" with
  | some intro => return (intro, 0)
  | none => do
    let intro ← Edit.create (Node.element "partintro")
    Edit.insertChild part 1 intro
    return (intro, 1)

/-- Moves a child of a part to the end of the introduction, if it belongs there. -/
def moveToIntro (intro child : NodeId) : Edit Nat := do
  if isIntroContent ((← get).tag? child) then
    Edit.appendChild intro child
    return 1
  else return 0

def gatherIntro (part : NodeId) : Edit Nat := do
  let children ← Edit.ask (·.childIds part)
  let (intro, made) ← introOf part children
  let moved ← Edit.tally (moveToIntro intro) children
  return made + moved

def partIntro : Rule where
  name := "part-intro"
  apply := do Edit.tally gatherIntro (← Edit.select "part")

/-- Moves each appendix out of its part. `anchors` pairs a part with the node placed after it last,
so that its appendices stay in order; a part at the top of the tree keeps them. -/
def hoistFrom (anchors : List (NodeId × NodeId)) : List NodeId → Edit Nat
  | [] => return 0
  | appendix :: rest => do
    match ← Edit.ask (·.parent? appendix) with
    | none => hoistFrom anchors rest
    | some part =>
      match ← Edit.ask (·.parent? part) with
      | none => hoistFrom anchors rest
      | some _ =>
        Edit.insertAfter ((anchors.lookup part).getD part) appendix
        let n ← hoistFrom ((part, appendix) :: anchors) rest
        return n + 1

def hoistAppendices : Rule where
  name := "hoist-appendices"
  apply := do hoistFrom [] (← Edit.select "part/appendix")

end BookMarkup.Rule
