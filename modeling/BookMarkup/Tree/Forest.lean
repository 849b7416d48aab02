import BookMarkup.Tree.Change

/-!
Forests: stores of nodes in which parents and children agree and no node lies below itself. The trees
that runs of changes lead to are collected in `Reachable`; a change that is refused counts as well,
with the tree that it leaves, and a misuse ends a run. What each change does to the node at a number
is read off through `get?`, so that later arguments need not look into the store.
-/

namespace BookMarkup.Tree

/-! ### Nodes by their numbers -/

@[simp] theorem get?_empty (id : NodeId) : Tree.empty.get? id = none := by
  simp [get?, Tree.empty]

theorem get?_isSome_iff {t : Tree} {id : NodeId} : (t.get? id).isSome ↔ id < t.nodes.size := by
  simp [get?]

theorem get?_eq_none_iff {t : Tree} {id : NodeId} : t.get? id = none ↔ t.nodes.size ≤ id := by
  simp [get?]

theorem lt_size_of_get? {t : Tree} {id : NodeId} {n : Node} (h : t.get? id = some n) :
    id < t.nodes.size :=
  get?_isSome_iff.1 (by rw [h]; rfl)

@[simp] theorem size_update (t : Tree) (id : NodeId) (f : Node → Node) :
    (t.update id f).nodes.size = t.nodes.size := by
  simp [update]

@[simp] theorem root_update (t : Tree) (id : NodeId) (f : Node → Node) :
    (t.update id f).root = t.root := rfl

theorem get?_update (t : Tree) (id : NodeId) (f : Node → Node) (i : NodeId) :
    (t.update id f).get? i = if id = i then (t.get? i).map f else t.get? i := by
  simp only [get?, update, Array.getElem?_modify]

@[simp] theorem size_plant (t : Tree) (content : Node) :
    (t.plant content).nodes.size = t.nodes.size + 1 := by
  simp [plant]

@[simp] theorem root_plant (t : Tree) (content : Node) : (t.plant content).root = t.root := rfl

theorem get?_plant (t : Tree) (content : Node) (i : NodeId) :
    (t.plant content).get? i =
      if i = t.nodes.size then
        some { content with id := t.nodes.size, parent := none, children := [] }
      else t.get? i := by
  simp only [get?, plant, Array.getElem?_push]

@[simp] theorem size_unlink (t : Tree) (parent child : NodeId) :
    (t.unlink parent child).nodes.size = t.nodes.size := by
  simp [unlink]

@[simp] theorem root_unlink (t : Tree) (parent child : NodeId) :
    (t.unlink parent child).root = t.root := rfl

theorem get?_unlink {t : Tree} {parent child : NodeId} (hne : parent ≠ child) (i : NodeId) :
    (t.unlink parent child).get? i =
      if i = child then (t.get? i).map fun n => { n with parent := none }
      else if i = parent then
        (t.get? i).map fun n => { n with children := n.children.filter (· ≠ child) }
      else t.get? i := by
  simp only [unlink, get?_update, eq_comm (a := child), eq_comm (a := parent)]
  by_cases hc : i = child
  · subst hc
    simp [Ne.symm hne]
  · simp [hc]

@[simp] theorem size_link (t : Tree) (parent : NodeId) (index : Nat) (child : NodeId) :
    (t.link parent index child).nodes.size = t.nodes.size := by
  simp [link]

@[simp] theorem root_link (t : Tree) (parent : NodeId) (index : Nat) (child : NodeId) :
    (t.link parent index child).root = t.root := rfl

theorem get?_link {t : Tree} {parent child : NodeId} (hne : parent ≠ child) (index : Nat)
    (i : NodeId) :
    (t.link parent index child).get? i =
      if i = child then (t.get? i).map fun n => { n with parent := some parent }
      else if i = parent then
        (t.get? i).map fun n =>
          { n with children := n.children.take index ++ child :: n.children.drop index }
      else t.get? i := by
  simp only [link, get?_update, eq_comm (a := child), eq_comm (a := parent)]
  by_cases hc : i = child
  · subst hc
    simp [Ne.symm hne]
  · simp [hc]

/-! ### Parents and children -/

/-- `Below t i j`: the node `i` lies somewhere below `j`, by one link or more. -/
inductive Below (t : Tree) : NodeId → NodeId → Prop
  | child {i j : NodeId} {n : Node} (hn : t.get? i = some n) (hp : n.parent = some j) : Below t i j
  | step {i j k : NodeId} {n : Node} (hn : t.get? i = some n) (hp : n.parent = some j)
      (h : Below t j k) : Below t i k

structure Forest (t : Tree) : Prop where
  numbered : ∀ {i n}, t.get? i = some n → n.id = i
  linked : ∀ {p n c}, t.get? p = some n →
    (c ∈ n.children ↔ ∃ m, t.get? c = some m ∧ m.parent = some p)
  rooted : ∀ {c m p}, t.get? c = some m → m.parent = some p → ∃ n, t.get? p = some n
  nodup : ∀ {p n}, t.get? p = some n → n.children.Nodup
  acyclic : ∀ i, ¬ Below t i i
  elementRoot : ∀ {r}, t.root = some r → ∃ n, t.get? r = some n ∧ n.isElement

/-- The trees that a run of changes can leave, beginning with the empty tree. A move that would put
a node below itself ends the run, as it does in builds with debug assertions; in a release build the
results on these trees hold for the runs without such a move. -/
inductive Reachable : Tree → Prop
  | empty : Reachable Tree.empty
  | done {t t' : Tree} {c : Change} {o : Change.Outcome} (h : Reachable t)
      (hc : c.perform.run t = .ok o t') : Reachable t'
  | refused {t t' : Tree} {c : Change} {f : Fault} (h : Reachable t)
      (hc : c.perform.run t = .error (.fault f) t') : Reachable t'

theorem forest_empty : Forest Tree.empty where
  numbered h := by simp [get?, Tree.empty] at h
  linked h := by simp [get?, Tree.empty] at h
  rooted h := by simp [get?, Tree.empty] at h
  nodup h := by simp [get?, Tree.empty] at h
  acyclic i h := by cases h <;> simp_all [get?, Tree.empty]
  elementRoot h := by simp [Tree.empty] at h

end BookMarkup.Tree
