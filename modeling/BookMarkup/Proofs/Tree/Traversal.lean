import BookMarkup.Proofs.Tree.Order
import BookMarkup.Proofs.Tree.Relocated

/-!
Traversals of a tree by a loop with a stack, told without a bound on its turns. In a store of nodes
that refer to each other at random the loop may go on for ever; in a tree that changes have led to it
ends, and it has visited a node before all that is below it, child by child. What is found in a tree,
and its text, come in this order.
-/

namespace BookMarkup.Tree

/-- The loop of a traversal ends with the result `r`. In each turn the node on top of the stack is
visited, and its children come in its place, the first one on top; the loop ends with the empty stack,
at an unknown number, or when a visit fails. -/
inductive Traversal {σ : Type} (t : Tree) (visit : Node → EStateM Fault σ Unit) :
    (stack : List NodeId) → (s : σ) → (r : EStateM.Result Fault σ Unit) → Prop
  | done {s : σ} : Traversal t visit [] s (.ok () s)
  | unknown {i : NodeId} {stack : List NodeId} {s : σ} (hn : t.get? i = none) :
      Traversal t visit (i :: stack) s (.error (.unknown i) s)
  | failed {i : NodeId} {stack : List NodeId} {s s' : σ} {n : Node} {f : Fault}
      (hn : t.get? i = some n) (hv : (visit n).run s = .error f s') :
      Traversal t visit (i :: stack) s (.error f s')
  | visited {i : NodeId} {stack : List NodeId} {s s' : σ} {n : Node}
      {r : EStateM.Result Fault σ Unit} (hn : t.get? i = some n) (hv : (visit n).run s = .ok () s')
      (rest : Traversal t visit (n.children ++ stack) s' r) : Traversal t visit (i :: stack) s r

section Traversal

variable {t : Tree} {σ : Type} {visit : Node → EStateM Fault σ Unit} {stack : List NodeId} {s : σ}

theorem Traversal.unique {r r' : EStateM.Result Fault σ Unit} (h : Traversal t visit stack s r)
    (h' : Traversal t visit stack s r') : r = r' := by
  induction h with
  | done =>
      cases h' with
      | done => rfl
  | unknown hn =>
      cases h' with
      | unknown => rfl
      | failed hn' => simp [hn] at hn'
      | visited hn' => simp [hn] at hn'
  | failed hn hv =>
      cases h' with
      | unknown hn' => simp [hn] at hn'
      | failed hn' hv' =>
          obtain rfl := Option.some.inj (hn.symm.trans hn')
          exact hv.symm.trans hv'
      | visited hn' hv' =>
          obtain rfl := Option.some.inj (hn.symm.trans hn')
          simp [hv] at hv'
  | visited hn hv _ ih =>
      cases h' with
      | unknown hn' => simp [hn] at hn'
      | failed hn' hv' =>
          obtain rfl := Option.some.inj (hn.symm.trans hn')
          simp [hv] at hv'
      | visited hn' hv' rest =>
          obtain rfl := Option.some.inj (hn.symm.trans hn')
          obtain ⟨-, rfl⟩ := EStateM.Result.ok.inj (hv.symm.trans hv')
          exact ih rest

/-- If no visit fails, the loop ends with all nodes visited that are on the stack or below it. -/
theorem Forest.traversal (hf : Forest t) {after : σ → Node → σ}
    (hv : ∀ n s, (visit n).run s = .ok () (after s n)) (hk : ∀ i ∈ stack, i < t.nodes.size)
    (s : σ) : Traversal t visit stack s (.ok () ((stack.flatMap t.subtree).foldl after s)) := by
  refine hf.induction_stack (P := fun stack => ∀ s,
    Traversal t visit stack s (.ok () ((stack.flatMap t.subtree).foldl after s)))
    (fun s => .done) (fun i n stack hn ih s => ?_) hk s
  rw [hf.flatMap_subtree_cons hn, List.foldl_cons]
  exact .visited hn (hv n s) (ih (after s n))

end Traversal

/-- The text of a node is its own, followed by those of its children. -/
theorem Forest.join_subtree {t : Tree} (hf : Forest t) {i : NodeId} {n : Node}
    (hn : t.get? i = some n) :
    String.join (((t.subtree i).filter Node.isCharacterData).map Node.value) =
      (if n.isCharacterData then n.value else "") ++ String.join (n.children.map fun c =>
        String.join (((t.subtree c).filter Node.isCharacterData).map Node.value)) := by
  rw [← String.toList_inj, hf.subtree_eq hn, List.filter_cons]
  split <;> simp [String.toList_join, List.filter_flatMap, List.flatMap_assoc, List.map_flatMap,
    List.flatMap_map]

/-- In a tree that changes have led to, a traversal of a known node ends, and if no visit fails it
has visited the node and all that is below it, each once, in the order of the recursion. The bounded
walk visits the same nodes, so that the numbers below a known node can always be told; what is found
from the root comes in this order, and so does the text of a node. -/
theorem traversal_of_reachable {t : Tree} (h : Reachable t) :
    (∀ i n, t.get? i = some n →
      (∀ (σ : Type) (visit : Node → EStateM Fault σ Unit) (after : σ → Node → σ),
        (∀ m s, (visit m).run s = .ok () (after s m)) → ∀ s r,
          Traversal t visit [i] s r ↔ r = .ok () ((t.subtree i).foldl after s)) ∧
      t.subtree i = n :: n.children.flatMap t.subtree ∧
      ((t.subtree i).map Node.id).Nodup ∧
      (∀ m, m ∈ t.subtree i ↔ t.get? m.id = some m ∧ Within t m.id i) ∧
      t.walk i = .ok (t.subtree i) ∧
      t.descendants i = .ok ((t.subtree i).map Node.id)) ∧
    (∀ p, t.root = none ∧ t.find p = [] ∨ ∃ r n, t.root = some r ∧ t.get? r = some n ∧
      t.find p = ((t.subtree r).filter p).map Node.id) ∧
    ∃ text : NodeId → String, ∀ i n, t.get? i = some n → t.textContent i = .ok (text i) ∧
      text i = (if n.isCharacterData then n.value else "") ++ String.join (n.children.map text) := by
  have hf := h.forest
  refine ⟨fun i n hn => ?_, fun p => ?_, _, fun i n hn =>
    ⟨hf.textContent_eq (lt_size_of_get? hn), hf.join_subtree hn⟩⟩
  · have hlt := lt_size_of_get? hn
    refine ⟨fun σ visit after hv s r => ?_, hf.subtree_eq hn, hf.nodup_subtree i,
      fun m => hf.mem_subtree, hf.walk_eq hlt, ?_⟩
    · have hk : ∀ j ∈ [i], j < t.nodes.size := by simpa using hlt
      have hend := hf.traversal hv hk s
      rw [List.flatMap_singleton] at hend
      exact ⟨fun hr => hr.unique hend, fun hr => hr ▸ hend⟩
    · rw [descendants, hf.walk_eq hlt]
  · cases hr : t.root with
    | none => exact .inl ⟨rfl, by simp [find, live, hr]⟩
    | some r =>
        obtain ⟨n, hn, -⟩ := hf.elementRoot hr
        exact .inr ⟨r, n, rfl, hn, by rw [find, hf.live_eq hr]⟩

/-- A node whose children do not come in the order of their numbers. -/
theorem traversal_of_swapped :
    let a : Node := { Node.element "a" with children := [2, 1] }
    let b : Node := { Node.element "b" with id := 1, parent := some 0 }
    let c : Node := { Node.element "c" with id := 2, parent := some 0 }
    let t : Tree := { nodes := #[a, b, c], root := some 0 }
    Reachable t ∧ t.get? 0 = some a ∧
      Traversal t (fun n => modify (n.name :: ·)) [0] [] (.ok () ["b", "c", "a"]) ∧
      t.descendants 0 = .ok [0, 2, 1] := by
  intro a b c t
  have hrooted : Reachable { nodes := #[{ a with children := [1, 2] }, b, c], root := some 0 } :=
    .done (c := .setRoot 0) reachable_siblings rfl
  have h : Reachable t := .done (c := .insertBefore 1 2) hrooted rfl
  obtain ⟨hknown, -⟩ := traversal_of_reachable h
  obtain ⟨htraversal, -, -, -, -, hbelow⟩ := hknown 0 a rfl
  exact ⟨h, rfl, (htraversal _ _ (fun names n => n.name :: names) (fun m s => rfl) _ _).2 rfl, hbelow⟩

end BookMarkup.Tree
