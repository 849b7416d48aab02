import BookMarkup.Text.Escape
import BookMarkup.Tree.Basic

/-!
Writing a document as text. An element whose children are all markup gets one child per line; an
element that holds character data is written on one line with all below it, so that no character
data changes. Comments and processing instructions count as markup.

`Layout.written` says what the written form of a document is; `Layout.print` builds that text from
front to back. Main statement: the two have the same characters.
-/

namespace BookMarkup

/-- How a document is laid out: the spaces per level, and whether the declaration is written. -/
structure Layout where
  indent : Nat := 2
  declaration : Bool := true
  deriving DecidableEq, Repr

namespace Layout

/-- A new line, indented for a depth. -/
def line (l : Layout) (depth : Nat) : List Char :=
  '\n' :: List.replicate (l.indent * depth) ' '

def writtenAttribute (name value : String) : List Char :=
  ' ' :: name.toList ++ ['=', '"'] ++ Text.escapeValue value ++ ['"']

/-- The written form of a node that is no element. -/
def writtenLeaf (n : Node) : List Char :=
  match n.kind with
  | .element => []
  | .text => Text.escapeData n.value
  | .cdata => ['<', '!', '[', 'C', 'D', 'A', 'T', 'A', '['] ++ n.value.toList ++ [']', ']', '>']
  | .comment => ['<', '!', '-', '-'] ++ n.value.toList ++ ['-', '-', '>']
  | .instruction =>
    ['<', '?'] ++ n.name.toList ++ (if n.value = "" then [] else ' ' :: n.value.toList) ++
      ['?', '>']

/-- The name of an element with its attributes, as they stand in its start tag. -/
def writtenHead (n : Node) (xmlns : Option String) : List Char :=
  '<' :: n.name.toList ++ (xmlns.map (writtenAttribute "xmlns")).getD [] ++
    n.attributes.entries.flatMap fun (name, value) => writtenAttribute name value

/-- Writes a node at a depth with at most `levels` levels of nodes. `spread` tells whether children
may have lines of their own. -/
def writtenNode (l : Layout) (t : Tree) : (levels depth : Nat) → (spread : Bool) →
    (xmlns : Option String) → NodeId → List Char
  | 0, _, _, _, _ => []
  | levels + 1, depth, spread, xmlns, id =>
    match t.get? id with
    | none => []
    | some n =>
      if !n.isElement then writtenLeaf n
      else if n.children.isEmpty then writtenHead n xmlns ++ ['/', '>']
      else
        let spread := spread && !n.children.any fun child =>
          ((t.get? child).map Node.isCharacterData).getD false
        let lead depth := if spread then l.line depth else []
        writtenHead n xmlns ++ ['>'] ++
          (n.children.flatMap fun child =>
            lead (depth + 1) ++ l.writtenNode t levels (depth + 1) spread none child) ++
          lead depth ++ ['<', '/'] ++ n.name.toList ++ ['>']

/-- The declaration on a line of its own. -/
def writtenDeclaration (standalone : Option String) : List Char :=
  "<?xml version=\"1.0\" encoding=\"UTF-8\"".toList ++
    (standalone.map (writtenAttribute "standalone")).getD [] ++ ['?', '>', '\n']

/-- The root and all below it. No chain from the root down is longer than the number of nodes. -/
def writtenTree (l : Layout) (t : Tree) (xmlns : Option String) : List Char :=
  match t.root with
  | none => []
  | some root => l.writtenNode t t.nodes.size 0 true xmlns root ++ ['\n']

def written (l : Layout) (d : Document) : List Char :=
  (if l.declaration then writtenDeclaration d.standalone else []) ++ l.writtenTree d.tree d.xmlns

/-- Appends the written form of a node to `out`. -/
def appendNode (l : Layout) (t : Tree) : (levels depth : Nat) → (spread : Bool) →
    (xmlns : Option String) → NodeId → (out : String) → String
  | 0, _, _, _, _, out => out
  | levels + 1, depth, spread, xmlns, id, out =>
    match t.get? id with
    | none => out
    | some n =>
      if !n.isElement then out ++ String.ofList (writtenLeaf n)
      else if n.children.isEmpty then out ++ String.ofList (writtenHead n xmlns) ++ "/>"
      else
        let spread := spread && !n.children.any fun child =>
          ((t.get? child).map Node.isCharacterData).getD false
        let lead depth := String.ofList (if spread then l.line depth else [])
        let head := out ++ String.ofList (writtenHead n xmlns) ++ ">"
        let body := n.children.foldl (fun out child =>
          l.appendNode t levels (depth + 1) spread none child (out ++ lead (depth + 1))) head
        body ++ lead depth ++ "</" ++ n.name ++ ">"

/-- The text of a document. -/
def print (l : Layout) (d : Document) : String :=
  let prolog := if l.declaration then String.ofList (writtenDeclaration d.standalone) else ""
  match d.tree.root with
  | none => prolog
  | some root => l.appendNode d.tree d.tree.nodes.size 0 true d.xmlns root prolog ++ "\n"

theorem toList_foldl_append {α : Type} (f : α → String → String) (g : α → List Char)
    (h : ∀ a out, (f a out).toList = out.toList ++ g a) (as : List α) (out : String) :
    (as.foldl (fun out a => f a out) out).toList = out.toList ++ as.flatMap g := by
  induction as generalizing out with
  | nil => simp
  | cons a as ih => simp [ih, h]

theorem toList_appendNode (l : Layout) (t : Tree) (levels depth : Nat) (spread : Bool)
    (xmlns : Option String) (id : NodeId) (out : String) :
    (l.appendNode t levels depth spread xmlns id out).toList =
      out.toList ++ l.writtenNode t levels depth spread xmlns id := by
  induction levels generalizing depth spread xmlns id out with
  | zero => simp [appendNode, writtenNode]
  | succ levels ih =>
    rw [appendNode, writtenNode]
    split
    · simp
    · split
      · simp
      · split
        · simp
        · simp only [String.toList_append, String.toList_ofList]
          rw [toList_foldl_append _ _ fun child out => by
            rw [ih, String.toList_append, String.toList_ofList, List.append_assoc]]
          simp

/-- The text of a document has the characters of its written form. -/
theorem toList_print (l : Layout) (d : Document) : (l.print d).toList = l.written d := by
  rw [print, written, writtenTree]
  split <;> split <;> simp [toList_appendNode]

end Layout

end BookMarkup
