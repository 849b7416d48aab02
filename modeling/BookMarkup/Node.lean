import BookMarkup.Attributes

/-!
Nodes of a document tree. A node knows its own number and those of its parent and children.
-/

namespace BookMarkup

/-- The number of a node: nodes are numbered from zero as they are created. The program has 32 bits
for a number, so that these are its numbers in trees of at most `2 ^ 32` nodes. -/
abbrev NodeId := Nat

inductive Node.Kind
  | element
  | text
  | cdata
  | instruction
  | comment
  deriving DecidableEq, Repr

/-- Elements have a tag as name and no value; the other kinds have a value, and of these a
processing instruction has its target as name. -/
structure Node where
  id : NodeId := 0
  kind : Node.Kind
  parent : Option NodeId := none
  children : List NodeId := []
  name : String
  value : String := ""
  attributes : Attributes := Attributes.empty
  deriving DecidableEq, Repr

namespace Node

def element (tag : String) : Node := { kind := .element, name := tag }

def text (value : String) : Node := { kind := .text, name := "#text", value }

def cdata (value : String) : Node := { kind := .cdata, name := "#cdata-section", value }

def comment (value : String) : Node := { kind := .comment, name := "#comment", value }

def instruction (target value : String) : Node := { kind := .instruction, name := target, value }

def isElement (n : Node) : Bool := n.kind == .element

def isText (n : Node) : Bool := n.kind == .text

/-- Text and CDATA hold the characters of a document. -/
def isCharacterData (n : Node) : Bool := n.kind == .text || n.kind == .cdata

def tag? (n : Node) : Option String := if n.isElement then some n.name else none

def isNamed (n : Node) (tag : String) : Bool := n.isElement && n.name == tag

def attribute? (n : Node) (name : String) : Option String := n.attributes.get? name

end Node

end BookMarkup
