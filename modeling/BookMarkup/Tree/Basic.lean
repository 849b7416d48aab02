import BookMarkup.Node

/-!
A document tree as a store of nodes. Nodes refer to each other by number and are never taken out of
the store: what is removed from the tree stays addressable but is no longer reached from the root.
A document is a tree with the parts of the prolog that are written again.
-/

namespace BookMarkup

structure Tree where
  nodes : Array Node := #[]
  root : Option NodeId := none
  deriving DecidableEq, Repr

namespace Tree

/-- Why a tree refuses a request. -/
inductive Fault
  | unknown (id : NodeId)
  | notAnElement (id : NodeId) (name : String)
  | detached (id : NodeId)
  deriving DecidableEq, Repr

def Fault.message : Fault → String
  | .unknown id => s!"Node not found: {id}"
  | .notAnElement _ name => s!"Invalid node type: expected element, got {name}"
  | .detached id => s!"Node {id} has no parent"

/-- What a caller must not ask for. Unlike a fault, a misuse is not an answer to go on from.
A misplaced attribute stops the program in every build. The other three are debug assertions: a
release build leaves them out and goes on, with a cycle in the tree, or with no nodes found for an
unknown start or an invalid selector. -/
inductive Misuse
  | cycle (child parent : NodeId)
  | unknownStart (id : NodeId)
  | invalidSelector (path : String)
  | misplacedAttribute (id : NodeId) (name : String)
  deriving DecidableEq, Repr

/-- Why an edit of a tree did not finish. -/
inductive Failure
  | fault (fault : Fault)
  | misuse (misuse : Misuse)
  deriving DecidableEq, Repr

def empty : Tree := {}

def get? (t : Tree) (id : NodeId) : Option Node :=
  t.nodes[id]?

def node (t : Tree) (id : NodeId) : Except Fault Node :=
  match t.get? id with
  | some n => .ok n
  | none => .error (.unknown id)

/-- The tree with one node changed. -/
def update (t : Tree) (id : NodeId) (f : Node → Node) : Tree :=
  { t with nodes := t.nodes.modify id f }

/-- The tree with one more node, which has neither parent nor children. Its number is the number of
nodes that there were. -/
def plant (t : Tree) (content : Node) : Tree :=
  { t with nodes := t.nodes.push { content with id := t.nodes.size, parent := none, children := [] } }

/-- The tree with one more node, the last child of `parent`. -/
def adopt (t : Tree) (parent : NodeId) (content : Node) : Tree :=
  let id := t.nodes.size
  ((t.plant content).update id fun n => { n with parent := some parent }).update parent fun p =>
    { p with children := p.children ++ [id] }

def rootNode? (t : Tree) : Option Node :=
  t.root.bind t.get?

/-- The tag of an element; other nodes and unknown numbers have none. -/
def tag? (t : Tree) (id : NodeId) : Option String :=
  (t.get? id).bind Node.tag?

def attribute? (t : Tree) (id : NodeId) (name : String) : Option String :=
  (t.get? id).bind (·.attribute? name)

def childIds (t : Tree) (id : NodeId) : Except Fault (List NodeId) :=
  (t.node id).map Node.children

def children (t : Tree) (id : NodeId) : Except Fault (List Node) := do
  let n ← t.node id
  n.children.mapM t.node

def parent? (t : Tree) (id : NodeId) : Except Fault (Option NodeId) :=
  (t.node id).map Node.parent

/-- The place of a child among the children of `parent`. -/
def position (siblings : List NodeId) (id parent : NodeId) : Except Fault Nat :=
  match siblings.idxOf? id with
  | some i => .ok i
  | none => .error (.unknown parent)

/-- The sibling right before a node, of whatever kind. -/
def previousSibling? (t : Tree) (id : NodeId) : Except Fault (Option NodeId) := do
  let n ← t.node id
  match n.parent with
  | none => return none
  | some parent =>
    let siblings ← t.childIds parent
    match ← position siblings id parent with
    | 0 => return none
    | i + 1 => return siblings[i]?

/-- Climbs from `id` to look for `ancestor`, by at most `steps` parents. -/
def climbs (t : Tree) (ancestor : NodeId) : (steps : Nat) → NodeId → Bool
  | 0, id => id == ancestor
  | steps + 1, id =>
    id == ancestor ||
      match (t.get? id).bind Node.parent with
      | some parent => t.climbs ancestor steps parent
      | none => false

/-- Whether `ancestor` is the node itself or lies above it. A chain of parents without a repetition
has no more links than the tree has nodes. -/
def isAncestor (t : Tree) (ancestor id : NodeId) : Bool :=
  t.climbs ancestor t.nodes.size id

end Tree

/-- A tree, the namespace that its root declares, and the `standalone` value of its declaration. -/
structure Document where
  tree : Tree := {}
  xmlns : Option String := none
  standalone : Option String := none
  deriving DecidableEq, Repr

/-- The tag of the root. -/
def Document.rootTag? (d : Document) : Option String :=
  d.tree.root.bind d.tree.tag?

end BookMarkup
