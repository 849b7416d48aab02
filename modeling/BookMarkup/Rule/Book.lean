import BookMarkup.Rule.CrossReference
import BookMarkup.Rule.Listing
import BookMarkup.Rule.Paragraph
import BookMarkup.Rule.Part

/-!
Rules for the vocabulary: elements and attributes that the book schema names differently, and those
that it does not know. With these the rules that turn general markup into the book schema are all
there; `bookRules` has them in the order in which they run.
-/

namespace BookMarkup.Rule

open BookMarkup.Tree

/-- Gives the elements that each selector accepts the tag beside it, pair by pair: a pair sees the
tags that the pairs before it gave. -/
def renameEach : List (String × String) → Edit Nat
  | [] => return 0
  | (selector, tag) :: rest => do
    let ids ← Edit.select selector
    let n ← Edit.tally (fun id => do Edit.rename id tag; return 1) ids
    let m ← renameEach rest
    return n + m

def renameElements (tags : List (String × String)) : Rule where
  name := "rename-elements"
  apply := renameEach tags

/-- The tags of the book schema for those of the general one. -/
def bookTags : List (String × String) :=
  [("simpara", "para"), ("literal", "code"), ("phrase", "para"), ("textobject", "caption")]

def renameAttribute (name selector old new : String) : Rule where
  name := name
  apply := do
    let ids ← Edit.select selector
    Edit.tally (fun id => return if ← Edit.renameAttribute id old new then 1 else 0) ids

/-- The language of a code block is its format in the book schema. -/
def codeLanguage : Rule :=
  renameAttribute "code-language" codeBlocks "language" "format"

/-- Removes the elements that each selector accepts, selector by selector. -/
def removeEach : List String → Edit Nat
  | [] => return 0
  | selector :: rest => do
    let ids ← Edit.select selector
    let n ← Edit.tally (fun id => do Edit.remove id; return 1) ids
    let m ← removeEach rest
    return n + m

def removeElements (name : String) (selectors : List String) : Rule where
  name := name
  apply := removeEach selectors

/-- Column specifications only hint at presentation. -/
def columnSpecs : Rule :=
  removeElements "remove-column-specs" ["colspec"]

/-- Removes the named attributes of one element and counts those that it had. -/
def removeAttributes (names : List String) (id : NodeId) : Edit Nat :=
  match names with
  | [] => return 0
  | name :: rest => do
    let n := if (← Edit.removeAttribute id name).isSome then 1 else 0
    let m ← removeAttributes rest id
    return n + m

/-- Removes the attributes listed beside each selector from the elements that it accepts. -/
def removeAttributesEach : List (String × List String) → Edit Nat
  | [] => return 0
  | (selector, names) :: rest => do
    let ids ← Edit.select selector
    let n ← Edit.tally (removeAttributes names) ids
    let m ← removeAttributesEach rest
    return n + m

/-- Removes elements, then attributes. -/
def pruneMetadata (elements : List String) (attributes : List (String × List String)) : Rule where
  name := "prune-metadata"
  apply := do
    let n ← removeEach elements
    let m ← removeAttributesEach attributes
    return n + m

def prunedElements : List String :=
  ["bookinfo/date", "bookinfo/authorinitials", "mediaobject/caption"]

def prunedAttributes : List (String × List String) :=
  [("orderedlist", ["numeration"]), ("programlisting|screen", ["linenumbering"]),
    ("table|informaltable", ["frame", "rowsep", "colsep"]), ("entry", ["align", "valign"])]

/-- The rules for the book schema, in the order in which they run. -/
def bookRules : List Rule :=
  [renameElements bookTags, pruneMetadata prunedElements prunedAttributes, partIntro, codeLanguage,
    formalListings, informalListings, hoistAppendices, attachCalloutLists, wrapHeaderCells,
    flattenAttributions, wrapBlockquotes, labelCrossReferences, columnSpecs]

end BookMarkup.Rule
