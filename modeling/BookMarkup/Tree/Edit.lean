import BookMarkup.Selector
import BookMarkup.Tree.Walk

/-!
Edits of a tree. An edit returns a value or a failure together with the tree that it leaves, since
some edits change the tree before the last of their checks.
-/

namespace BookMarkup

abbrev Tree.Edit := EStateM Tree.Failure Tree

namespace Tree

/-- The tree without the link between a parent and its child. -/
def unlink (t : Tree) (parent child : NodeId) : Tree :=
  (t.update parent fun n => { n with children := n.children.filter (· ≠ child) }).update child
    fun n => { n with parent := none }

/-- The tree with a node linked below `parent` at `index`, or at the end if the index lies past it. -/
def link (t : Tree) (parent : NodeId) (index : Nat) (child : NodeId) : Tree :=
  (t.update parent fun n =>
    { n with children := n.children.take index ++ child :: n.children.drop index }).update child
    fun n => { n with parent := some parent }

namespace Edit

def ask (question : Tree → Except Fault α) : Edit α := fun t =>
  match question t with
  | .ok a => .ok a t
  | .error f => .error (.fault f) t

def refuse (f : Fault) : Edit α := throw (.fault f)

def misuse (m : Misuse) : Edit α := throw (.misuse m)

/-- Adds a node without parent and children; its number is the next one. -/
def create (n : Node) : Edit NodeId := fun t =>
  .ok t.nodes.size (t.plant n)

/-- Changes a known node. -/
def change (id : NodeId) (f : Node → Node) : Edit Unit := do
  let _ ← ask (·.node id)
  modify (·.update id f)

def setRoot (id : NodeId) : Edit Unit := do
  let n ← ask (·.node id)
  if n.isElement then modify fun t => { t with root := some id }
  else refuse (.notAnElement id n.name)

/-- Unlinks a node from its parent. A root without parent is the root no longer; any other node
without parent stays as it is. -/
def detach (id : NodeId) : Edit Unit := do
  let n ← ask (·.node id)
  match n.parent with
  | none => modify fun t => if t.root = some id then { t with root := none } else t
  | some parent =>
    let _ ← ask (·.node parent)
    modify (·.unlink parent id)

/-- Takes a node, and with it all below it, out of the live tree. -/
def remove (id : NodeId) : Edit Unit :=
  detach id

/-- Moves a node below `parent`, to `index` among the children that are there without it. A node must
not come below itself; that is a debug assertion, and a release build makes the move unchecked. -/
def insertChild (parent : NodeId) (index : Nat) (child : NodeId) : Edit Unit := do
  if (← get).isAncestor child parent then misuse (.cycle child parent)
  else
    let _ ← ask (·.node child)
    detach child
    let _ ← ask (·.node parent)
    modify (·.link parent index child)

/-- Moves a node to the end of the children of `parent`. -/
def appendChild (parent child : NodeId) : Edit Unit := do
  let children ← ask (·.childIds parent)
  insertChild parent children.length child

/-- Moves a node to the parent of `reference`, `offset` places after it. The node leaves its old
place first, so that it does not count among the siblings. -/
def insertBeside (offset : Nat) (reference id : NodeId) : Edit Unit := do
  if reference = id then pure ()
  else
    detach id
    match ← ask (·.parent? reference) with
    | none => refuse (.detached reference)
    | some parent =>
      let siblings ← ask (·.childIds parent)
      let place ← ask fun _ => position siblings reference parent
      insertChild parent (place + offset) id

def insertBefore (reference id : NodeId) : Edit Unit :=
  insertBeside 0 reference id

def insertAfter (reference id : NodeId) : Edit Unit :=
  insertBeside 1 reference id

/-- Gives an element another tag. -/
def rename (id : NodeId) (tag : String) : Edit Unit := do
  let n ← ask (·.node id)
  if n.isElement then modify (·.update id fun n => { n with name := tag })
  else refuse (.notAnElement id n.name)

def setAttribute (id : NodeId) (name value : String) : Edit Unit :=
  change id fun n => { n with attributes := n.attributes.insert name value }

/-- Removes an attribute and returns the value that it had. -/
def removeAttribute (id : NodeId) (name : String) : Edit (Option String) := do
  let n ← ask (·.node id)
  modify (·.update id fun n => { n with attributes := n.attributes.erase name })
  return n.attribute? name

/-- Renames an attribute in its place and tells whether there was one. -/
def renameAttribute (id : NodeId) (old new : String) : Edit Bool := do
  let n ← ask (·.node id)
  match n.attributes.rename old new with
  | .absent => return false
  | .renamed attributes =>
    modify (·.update id fun n => { n with attributes })
    return true
  | .misplaced => misuse (.misplacedAttribute id old)

/-- Forgets all nodes; numbers begin at zero again. -/
def clear : Edit Unit :=
  set Tree.empty

/-- The live nodes that a path selects; the path has to be valid. -/
def select (path : String) : Edit (List NodeId) := fun t =>
  match Selector.parse path with
  | .ok selector => .ok (selector.select t) t
  | .error _ => .error (.misuse (.invalidSelector path)) t

/-- Runs an edit on each node in turn and adds up the counts. -/
def tally (f : NodeId → Edit Nat) : List NodeId → Edit Nat
  | [] => return 0
  | id :: ids => do
    let n ← f id
    let m ← tally f ids
    return n + m

end Edit

end Tree

end BookMarkup
