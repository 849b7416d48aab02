import BookMarkup.Tree.Basic

/-!
Walking a tree in document order: a node, then what lies below its children from left to right. The
walk keeps the nodes still to be visited on a stack; `preorder` tells the same order by recursion.
-/

namespace BookMarkup.Tree

/-- Visits the nodes on the stack and all below them, at most `visits` in number. `seen` holds the
nodes visited so far, the last one first. -/
def walkFrom (t : Tree) : (visits : Nat) → (stack : List NodeId) → (seen : List Node) →
    Except Fault (List Node)
  | _, [], seen => .ok seen.reverse
  | 0, _ :: _, seen => .ok seen.reverse
  | visits + 1, id :: stack, seen =>
    match t.get? id with
    | none => .error (.unknown id)
    | some n => t.walkFrom visits (n.children ++ stack) (n :: seen)

/-- The node and all below it, in document order. No node of a tree is visited twice, so as many
visits as there are nodes are enough; one more tells an unknown number from an empty tree. -/
def walk (t : Tree) (id : NodeId) : Except Fault (List Node) :=
  t.walkFrom (t.nodes.size + 1) [id] []

/-- The node and what lies at most `levels` levels below it, in document order. -/
def preorder (t : Tree) : (levels : Nat) → NodeId → List Node
  | 0, id => (t.get? id).toList
  | levels + 1, id =>
    match t.get? id with
    | none => []
    | some n => n :: n.children.flatMap (t.preorder levels)

/-- The numbers of a known node and of all below it, in document order. -/
def descendants (t : Tree) (id : NodeId) : Except Misuse (List NodeId) :=
  match t.walk id with
  | .ok nodes => .ok (nodes.map Node.id)
  | .error _ => .error (.unknownStart id)

/-- The nodes reached from the root, in document order. -/
def live (t : Tree) : List Node :=
  match t.root with
  | none => []
  | some root => (t.walk root).toOption.getD []

/-- The live nodes with a property, in document order. -/
def find (t : Tree) (p : Node → Bool) : List NodeId :=
  (t.live.filter p).map Node.id

/-- The text and CDATA of a node and all below it, joined in document order. -/
def textContent (t : Tree) (id : NodeId) : Except Fault String := do
  let nodes ← t.walk id
  return String.join ((nodes.filter Node.isCharacterData).map Node.value)

end BookMarkup.Tree
