import BookMarkup.Rule.Basic
import BookMarkup.Text.Cut

/-!
Rules for code listings. Every code or screen block becomes a `programlisting` inside an `example`,
where it had a title, or else inside an `informalexample`; callouts join the listing before them.
-/

namespace BookMarkup.Rule

open BookMarkup.Tree

/-- Drops the role of `source`. A role that asks for long annotations is noted on `wrapper`. -/
def propagateAnnotations (source wrapper : NodeId) : Edit Unit := do
  match ← Edit.removeAttribute source "role" with
  | none => pure ()
  | some role =>
    if Text.hasToken role "long-annotations" then
      Edit.setAttribute wrapper "annotations" "below"
    else pure ()

/-- Moves a block out of the paragraph of its formal paragraph, which becomes an example. A paragraph
left without children is removed. -/
def formalize (block : NodeId) : Edit Nat := do
  match ← Edit.ask (·.parent? block) with
  | none => return 0
  | some para =>
    match ← Edit.ask (·.parent? para) with
    | none => return 0
    | some formal =>
      Edit.rename block "programlisting"
      Edit.insertBefore para block
      Edit.rename formal "example"
      propagateAnnotations para formal
      let left ← Edit.ask (·.childIds para)
      if left.isEmpty then
        Edit.remove para
        return 1
      else return 1

/-- The blocks are selected before the first formal paragraph gets its new tag. -/
def formalListings : Rule where
  name := "formal-listings"
  apply := do Edit.tally formalize (← Edit.select ("formalpara/para/" ++ codeBlocks))

/-- Whether an element with this tag holds a listing already. -/
def isListingWrapper (tag : Option String) : Bool :=
  tag == some "example" || tag == some "informalexample"

/-- Wraps a block, unless it has a listing around it or nothing at all. -/
def wrapBlock (block : NodeId) : Edit Nat := do
  match ← Edit.ask (·.parent? block) with
  | none => return 0
  | some parent =>
    if isListingWrapper ((← get).tag? parent) then return 0
    else
      let wrapper ← Edit.create (Node.element "informalexample")
      Edit.insertBefore block wrapper
      Edit.rename block "programlisting"
      Edit.appendChild wrapper block
      propagateAnnotations block wrapper
      return 1

def informalListings : Rule where
  name := "informal-listings"
  apply := do Edit.tally wrapBlock (← Edit.select codeBlocks)

/-- Moves a list of callouts into the listing right before it. -/
def attachCallouts (list : NodeId) : Edit Nat := do
  match ← Edit.ask (·.previousSibling? list) with
  | none => return 0
  | some previous =>
    match (← get).tag? previous with
    | none => return 0
    | some tag =>
      if "example".toList.isSuffixOf tag.toList then
        Edit.appendChild previous list
        return 1
      else return 0

def attachCalloutLists : Rule where
  name := "attach-callout-lists"
  apply := do Edit.tally attachCallouts (← Edit.select "calloutlist")

end BookMarkup.Rule
