import BookMarkup.Proofs.Tree.Links
import BookMarkup.Tree.Change

/-!
The outcome of every edit of a forest: which answer it gives and which tree it leaves, with all its
checks in order. From these equations it follows that every change leaves a forest, refused or not,
and so that every reachable tree is one.
-/

namespace BookMarkup.Tree

open EStateM (Result)

def left {ε α : Type} : Result ε Tree α → Tree
  | .ok _ t => t
  | .error _ t => t

@[simp] theorem left_ok {ε α : Type} (a : α) (t : Tree) : left (.ok a t : Result ε Tree α) = t := rfl

@[simp] theorem left_error {ε α : Type} (e : ε) (t : Tree) :
    left (.error e t : Result ε Tree α) = t := rfl

section Run

variable {α β : Type}

theorem run_ask (question : Tree → Except Fault α) (t : Tree) :
    (Edit.ask question).run t =
      match question t with
      | .ok a => .ok a t
      | .error f => .error (.fault f) t := rfl

theorem run_ask_node (id : NodeId) (f : Node → Edit α) (t : Tree) :
    (Edit.ask (·.node id) >>= f).run t =
      match t.get? id with
      | some n => (f n).run t
      | none => .error (.fault (.unknown id)) t := by
  simp only [EStateM.run_bind, run_ask, node]
  cases t.get? id <;> rfl

theorem run_ask_parent? (id : NodeId) (f : Option NodeId → Edit α) (t : Tree) :
    (Edit.ask (·.parent? id) >>= f).run t =
      if id < t.nodes.size then (f (t.parentOf id)).run t
      else .error (.fault (.unknown id)) t := by
  simp only [EStateM.run_bind, run_ask, parent?, node]
  cases hn : t.get? id with
  | none =>
      rw [if_neg (Nat.not_lt.2 (get?_eq_none_iff.1 hn))]
      rfl
  | some n =>
      rw [if_pos (lt_size_of_get? hn), parentOf_of_get? hn]
      rfl

theorem run_ask_childIds (id : NodeId) (f : List NodeId → Edit α) (t : Tree) :
    (Edit.ask (·.childIds id) >>= f).run t =
      if id < t.nodes.size then (f (t.childrenOf id)).run t
      else .error (.fault (.unknown id)) t := by
  simp only [EStateM.run_bind, run_ask, childIds, node]
  cases hn : t.get? id with
  | none =>
      rw [if_neg (Nat.not_lt.2 (get?_eq_none_iff.1 hn))]
      rfl
  | some n =>
      rw [if_pos (lt_size_of_get? hn), childrenOf_of_get? hn]
      rfl

end Run

/-! ### Moves -/

theorem run_appendChild (p c : NodeId) (t : Tree) :
    (Edit.appendChild p c).run t =
      if p < t.nodes.size then (Edit.insertChild p (t.childrenOf p).length c).run t
      else .error (.fault (.unknown p)) t := by
  rw [Edit.appendChild, run_ask_childIds]

theorem position_eq_ok {siblings : List NodeId} {id parent : NodeId} (h : id ∈ siblings) :
    position siblings id parent = .ok (siblings.idxOf id) := by
  have hi : siblings.idxOf? id = some (siblings.idxOf id) := by
    rw [List.idxOf?, List.findIdx?_eq_some_iff_findIdx_eq]
    exact ⟨List.idxOf_lt_length_iff.2 h, rfl⟩
  rw [position, hi]

section Moves

variable {t : Tree} (hf : Forest t)

include hf

/-- The sibling before a node, which is found whenever the node is known. -/
theorem Forest.previousSibling?_eq (i : NodeId) :
    t.previousSibling? i =
      if i < t.nodes.size then
        .ok ((t.parentOf i).bind fun p =>
          ((t.childrenOf p).take ((t.childrenOf p).idxOf i)).getLast?)
      else .error (.unknown i) := by
  rw [previousSibling?, node]
  cases hn : t.get? i with
  | none =>
      rw [if_neg (Nat.not_lt.2 (get?_eq_none_iff.1 hn))]
      rfl
  | some n =>
      rw [if_pos (lt_size_of_get? hn), parentOf_of_get? hn]
      simp only [bind, Except.bind]
      cases hp : n.parent with
      | none => rfl
      | some p =>
          have hpi : t.parentOf i = some p := (parentOf_of_get? hn).trans hp
          have hmem : i ∈ t.childrenOf p := hf.mem_childrenOf.2 hpi
          obtain ⟨m, hm⟩ := Option.isSome_iff_exists.1 (get?_isSome_iff.2 (hf.parent_lt hpi))
          rw [childrenOf_of_get? hm] at hmem
          have hlt := List.idxOf_lt_length_iff.2 hmem
          simp only [childIds, node, hm, Except.map, position_eq_ok hmem, Option.bind_some,
            childrenOf_of_get? hm, List.getLast?_take]
          cases hidx : m.children.idxOf i with
          | zero => rfl
          | succ k =>
              rw [hidx] at hlt
              simp [Nat.lt_of_succ_lt hlt, pure, Except.pure]

theorem run_detach (id : NodeId) :
    (Edit.detach id).run t =
      if id < t.nodes.size then .ok () (t.detached id) else .error (.fault (.unknown id)) t := by
  rw [Edit.detach, run_ask_node, detached]
  cases hn : t.get? id with
  | none => rw [if_neg (Nat.not_lt.2 (get?_eq_none_iff.1 hn))]
  | some n =>
      rw [if_pos (lt_size_of_get? hn), parentOf_of_get? hn]
      simp only
      cases hp : n.parent with
      | none => rfl
      | some p =>
          obtain ⟨m, hm⟩ := hf.rooted hn hp
          simp only [EStateM.run_bind, run_ask, node, hm, EStateM.run_modify]

theorem run_insertChild (p k c : Nat) :
    (Edit.insertChild p k c).run t =
      if t.isAncestor c p then .error (.misuse (.cycle c p)) t
      else if c < t.nodes.size then
        if p < t.nodes.size then .ok () (t.moved p k c)
        else .error (.fault (.unknown p)) (t.detached c)
      else .error (.fault (.unknown c)) t := by
  rw [Edit.insertChild, EStateM.run_bind, EStateM.run_get]
  simp only
  split
  · rfl
  · rw [run_ask_node]
    cases hn : t.get? c with
    | none => rw [if_neg (Nat.not_lt.2 (get?_eq_none_iff.1 hn))]
    | some n =>
        have hc := lt_size_of_get? hn
        simp only [EStateM.run_bind, run_detach hf, hc, if_true, run_ask, node]
        cases hm : (t.detached c).get? p with
        | none =>
            have hp := get?_eq_none_iff.1 hm
            rw [size_detached] at hp
            rw [if_neg (Nat.not_lt.2 hp)]
        | some m =>
            have hp := lt_size_of_get? hm
            rw [size_detached] at hp
            rw [if_pos hp]
            rfl

/-- Among its siblings a node is always found, so that its place cannot be the reason of a fault. -/
theorem run_insertBeside (offset : Nat) {r c : NodeId} (hrc : r ≠ c) :
    (Edit.insertBeside offset r c).run t =
      if c < t.nodes.size then
        if r < t.nodes.size then
          match t.parentOf r with
          | none => .error (.fault (.detached r)) (t.detached c)
          | some p =>
            (Edit.insertChild p (((t.childrenOf p).filter (· ≠ c)).idxOf r + offset) c).run
              (t.detached c)
        else .error (.fault (.unknown r)) (t.detached c)
      else .error (.fault (.unknown c)) t := by
  rw [Edit.insertBeside, if_neg hrc, EStateM.run_bind, run_detach hf]
  by_cases hc : c < t.nodes.size
  · simp only [hc, if_true]
    rw [run_ask_parent?, size_detached, parentOf_detached hf, if_neg hrc]
    split
    · cases hp : t.parentOf r with
      | none => rfl
      | some p =>
          have hmem : r ∈ (t.childrenOf p).filter (· ≠ c) := by
            simpa [hf.mem_childrenOf, hp] using hrc
          simp only
          rw [run_ask_childIds, size_detached, if_pos (hf.parent_lt hp), childrenOf_detached hf,
            EStateM.run_bind, run_ask, position_eq_ok hmem]
    · rfl
  · simp only [hc, if_false]

end Moves

/-! ### Labels -/

theorem run_change (id : NodeId) (f : Node → Node) (t : Tree) :
    (Edit.change id f).run t =
      if id < t.nodes.size then .ok () (t.update id f) else .error (.fault (.unknown id)) t := by
  rw [Edit.change, run_ask_node]
  cases hn : t.get? id with
  | none => rw [if_neg (Nat.not_lt.2 (get?_eq_none_iff.1 hn))]
  | some n =>
      rw [if_pos (lt_size_of_get? hn)]
      rfl

theorem run_rename (id : NodeId) (tag : String) (t : Tree) :
    (Edit.rename id tag).run t =
      match t.get? id with
      | none => .error (.fault (.unknown id)) t
      | some n =>
        if n.isElement then .ok () (t.update id fun n => { n with name := tag })
        else .error (.fault (.notAnElement id n.name)) t := by
  rw [Edit.rename, run_ask_node]
  cases t.get? id with
  | none => rfl
  | some n =>
      simp only
      split <;> rfl

theorem run_setRoot (id : NodeId) (t : Tree) :
    (Edit.setRoot id).run t =
      match t.get? id with
      | none => .error (.fault (.unknown id)) t
      | some n =>
        if n.isElement then .ok () { t with root := some id }
        else .error (.fault (.notAnElement id n.name)) t := by
  rw [Edit.setRoot, run_ask_node]
  cases t.get? id with
  | none => rfl
  | some n =>
      simp only
      split <;> rfl

theorem run_removeAttribute (id : NodeId) (name : String) (t : Tree) :
    (Edit.removeAttribute id name).run t =
      match t.get? id with
      | none => .error (.fault (.unknown id)) t
      | some n =>
        .ok (n.attribute? name)
          (t.update id fun n => { n with attributes := n.attributes.erase name }) := by
  rw [Edit.removeAttribute, run_ask_node]
  cases t.get? id <;> rfl

theorem run_renameAttribute (id : NodeId) (old new : String) (t : Tree) :
    (Edit.renameAttribute id old new).run t =
      match t.get? id with
      | none => .error (.fault (.unknown id)) t
      | some n =>
        match n.attributes.rename old new with
        | .absent => .ok false t
        | .renamed attributes => .ok true (t.update id fun n => { n with attributes })
        | .misplaced => .error (.misuse (.misplacedAttribute id old)) t := by
  rw [Edit.renameAttribute, run_ask_node]
  cases t.get? id with
  | none => rfl
  | some n =>
      simp only
      cases n.attributes.rename old new <;> rfl

/-! ### Every change leaves a forest -/

section Left

variable {t : Tree} (hf : Forest t)

include hf

theorem Forest.left_detach (id : NodeId) : Forest (left ((Edit.detach id).run t)) := by
  rw [run_detach hf]
  split
  · exact hf.detached id
  · exact hf

theorem Forest.left_insertChild (p k c : Nat) :
    Forest (left ((Edit.insertChild p k c).run t)) := by
  rw [run_insertChild hf]
  split
  · exact hf
  · next hpc =>
    rw [hf.isAncestor_iff] at hpc
    split
    · next hc =>
      split
      · next hp => exact hf.moved hp hc hpc k
      · exact hf.detached c
    · exact hf

theorem Forest.left_appendChild (p c : NodeId) :
    Forest (left ((Edit.appendChild p c).run t)) := by
  rw [run_appendChild]
  split
  · exact hf.left_insertChild p _ c
  · exact hf

theorem Forest.left_insertBeside (offset : Nat) (r c : NodeId) :
    Forest (left ((Edit.insertBeside offset r c).run t)) := by
  by_cases hrc : r = c
  · rw [Edit.insertBeside, if_pos hrc]
    exact hf
  · rw [run_insertBeside hf offset hrc]
    split
    · split
      · split
        · exact hf.detached c
        · exact (hf.detached c).left_insertChild _ _ c
      · exact hf.detached c
    · exact hf

theorem Forest.left_setRoot (id : NodeId) : Forest (left ((Edit.setRoot id).run t)) := by
  rw [run_setRoot]
  cases hn : t.get? id with
  | none => exact hf
  | some n =>
      simp only
      split
      · next he =>
        refine hf.of_same_links hf.numbered (fun _ => rfl) (fun _ => rfl) fun {r} hr => ?_
        rw [← Option.some.inj hr]
        exact ⟨n, hn, he⟩
      · exact hf

theorem Forest.left_rename (id : NodeId) (tag : String) :
    Forest (left ((Edit.rename id tag).run t)) := by
  rw [run_rename]
  split
  · exact hf
  · split
    · exact hf.update (Node.relabels_name tag) id
    · exact hf

theorem Forest.left_setAttribute (id : NodeId) (name value : String) :
    Forest (left ((Edit.setAttribute id name value).run t)) := by
  rw [Edit.setAttribute, run_change]
  split
  · exact hf.update (Node.relabels_attributes fun a => a.insert name value) id
  · exact hf

theorem Forest.left_removeAttribute (id : NodeId) (name : String) :
    Forest (left ((Edit.removeAttribute id name).run t)) := by
  rw [run_removeAttribute]
  split
  · exact hf
  · exact hf.update (Node.relabels_attributes fun a => a.erase name) id

theorem Forest.left_renameAttribute (id : NodeId) (old new : String) :
    Forest (left ((Edit.renameAttribute id old new).run t)) := by
  rw [run_renameAttribute]
  split
  · exact hf
  · split
    · exact hf
    · next a _ => exact hf.update (Node.relabels_attributes fun _ => a) id
    · exact hf

/-- A change leaves a forest, whatever it answers. -/
theorem Forest.left_perform (c : Change) : Forest (left (c.perform.run t)) := by
  have keep {α : Type} {e : Edit α} {f : α → Change.Outcome} (h : Forest (left (e.run t))) :
      Forest (left ((e >>= fun a => pure (f a)).run t)) := by
    rw [EStateM.run_bind]
    cases hr : e.run t with
    | ok a t' => exact (hr ▸ h :)
    | error e t' => exact (hr ▸ h :)
  cases c with
  | create content => exact keep (hf.plant content)
  | setRoot id => exact keep (hf.left_setRoot id)
  | detach id => exact keep (hf.left_detach id)
  | remove id => exact keep (hf.left_detach id)
  | appendChild parent child => exact keep (hf.left_appendChild parent child)
  | insertChild parent index child => exact keep (hf.left_insertChild parent index child)
  | insertBefore reference id => exact keep (hf.left_insertBeside 0 reference id)
  | insertAfter reference id => exact keep (hf.left_insertBeside 1 reference id)
  | rename id tag => exact keep (hf.left_rename id tag)
  | setAttribute id name value => exact keep (hf.left_setAttribute id name value)
  | removeAttribute id name => exact keep (hf.left_removeAttribute id name)
  | renameAttribute id old new => exact keep (hf.left_renameAttribute id old new)
  | clear => exact keep forest_empty

end Left

theorem Reachable.forest {t : Tree} (h : Reachable t) : Forest t := by
  induction h with
  | empty => exact forest_empty
  | @done t t' c o _ hc ih =>
      have h := ih.left_perform c
      rwa [hc] at h
  | @refused t t' c f _ hc ih =>
      have h := ih.left_perform c
      rwa [hc] at h

/-- After every call of a run, refused or not, the tree is a forest. Its chains of parents end, so
that the climb for an ancestor finds every node above and nothing else. -/
theorem forest_and_climb_of_reachable {t : Tree} (h : Reachable t) :
    Forest t ∧ (∀ i, t.ascend (t.nodes.size + 1) i = none) ∧
      ∀ a i, t.isAncestor a i = true ↔ i = a ∨ Below t i a :=
  ⟨h.forest, h.forest.ascend_eq_none, fun _ _ => h.forest.isAncestor_iff.trans within_iff⟩

theorem reachable_pair :
    Reachable { nodes := #[Node.element "a", { Node.element "b" with id := 1 }] } :=
  .done (c := .create (Node.element "b")) (.done (c := .create (Node.element "a")) .empty rfl) rfl

/-- A run with a refusal that leaves a change behind: the child is detached before its new sibling
turns out to be unknown. -/
theorem forest_and_climb_after_refusal :
    let a : Node := Node.element "a"
    let b : Node := { Node.element "b" with id := 1 }
    let t : Tree := { nodes := #[a, b], root := some 0 }
    Reachable t ∧ Forest t ∧ (∀ i, t.ascend (t.nodes.size + 1) i = none) ∧
      ∀ a i, t.isAncestor a i = true ↔ i = a ∨ Below t i a := by
  intro a b t
  have created : Reachable { nodes := #[a, b] } :=
    .done (c := .create b) (.done (c := .create a) .empty rfl) rfl
  have linked : Reachable
      { nodes := #[{ a with children := [1] }, { b with parent := some 0 }], root := some 0 } :=
    .done (c := .appendChild 0 1) (.done (c := .setRoot 0) created rfl) rfl
  have h : Reachable t := .refused (c := .insertBefore 7 1) (f := .unknown 7) linked rfl
  exact ⟨h, forest_and_climb_of_reachable h⟩
end BookMarkup.Tree
