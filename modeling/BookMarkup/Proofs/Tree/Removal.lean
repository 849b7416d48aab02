import BookMarkup.Proofs.Tree.Order
import BookMarkup.Proofs.Tree.Outcome

/-!
What removing a node leaves to be found. A node is found from the root, while it is removed from its
parent, and the two need not fit: a root that has a parent, or a root below the removed node, stays
the root. Main statement: a removed node and what lies below it are found no longer, except below a
root that stays; all other nodes are found as before.
-/

namespace BookMarkup.Tree

/-- A node is found if some question about nodes or some valid path finds it. -/
def Found (t : Tree) (i : NodeId) : Prop :=
  (∃ p, i ∈ t.find p) ∨ ∃ path ids t', (Edit.select path).run t = .ok ids t' ∧ i ∈ ids

/-- The root lies within the node, and it is not the node itself without a parent. Removing the node
leaves such a root in its place. -/
def RootStays (t : Tree) (c : NodeId) : Prop :=
  ∃ r, t.root = some r ∧ Within t r c ∧ ¬ (r = c ∧ t.parentOf c = none)

theorem root_detached_eq_some {t : Tree} {c r : NodeId} :
    (t.detached c).root = some r ↔ t.root = some r ∧ ¬ (r = c ∧ t.parentOf c = none) := by
  rw [root_detached]
  split
  · next h => simp [h.1, h.2, eq_comm]
  · next h =>
    constructor
    · intro hr
      exact ⟨hr, fun hc => h ⟨hc.2, hc.1 ▸ hr⟩⟩
    · exact And.left

section Forest

variable {t : Tree} (hf : Forest t)

include hf

/-- What can be found is what is reached from the root. -/
theorem Forest.found_iff {i : NodeId} : t.Found i ↔ t.Live i := by
  constructor
  · rintro (⟨p, hi⟩ | ⟨path, ids, t', hrun, hi⟩)
    · exact (hf.mem_find.1 hi).1
    · simp only [EStateM.run, Edit.select] at hrun
      split at hrun
      · next s _ =>
        obtain ⟨rfl, _⟩ := EStateM.Result.ok.inj hrun
        exact (hf.mem_select.1 hi).1
      · cases hrun
  · intro hl
    obtain ⟨n, hn⟩ := Option.isSome_iff_exists.1 (get?_isSome_iff.2 (hl.lt hf))
    exact .inl ⟨fun _ => true, hf.mem_find.2 ⟨hl, n, hn, rfl⟩⟩

/-- Within a detached node, only a root that stays there keeps a node live. -/
theorem live_detached_of_within {c i : NodeId} (hi : Within t i c) :
    (t.detached c).Live i ↔ t.Live i ∧ RootStays t c := by
  have hup (r : NodeId) : Within (t.detached c) i r ↔ Within t i r ∧ Within t r c := by
    simpa using within_relink_of_within hf (parentOf_detached hf c) (by simp) hi (k := r)
  constructor
  · rintro ⟨r, hr, hw⟩
    obtain ⟨hr, hne⟩ := root_detached_eq_some.1 hr
    obtain ⟨hir, hrc⟩ := (hup r).1 hw
    exact ⟨⟨r, hr, hir⟩, r, hr, hrc, hne⟩
  · rintro ⟨⟨r, hr, hir⟩, r', hr', hrc, hne⟩
    obtain rfl := Option.some.inj (hr.symm.trans hr')
    exact ⟨r, root_detached_eq_some.2 ⟨hr, hne⟩, (hup r).2 ⟨hir, hrc⟩⟩

theorem live_detached_of_not_within {c i : NodeId} (hi : ¬ Within t i c) :
    (t.detached c).Live i ↔ t.Live i := by
  have hup (r : NodeId) : Within (t.detached c) i r ↔ Within t i r :=
    within_relink_of_not_within (parentOf_detached hf c) hi
  constructor
  · rintro ⟨r, hr, hw⟩
    exact ⟨r, (root_detached_eq_some.1 hr).1, (hup r).1 hw⟩
  · rintro ⟨r, hr, hw⟩
    refine ⟨r, root_detached_eq_some.2 ⟨hr, ?_⟩, (hup r).2 hw⟩
    rintro ⟨rfl, _⟩
    exact hi hw

end Forest

/-- Removing a known node succeeds. Neither the node nor any node below it is found afterwards,
except those below a root that stays; the other nodes are found exactly if they were before. -/
theorem found_of_remove {t : Tree} (h : Reachable t) {c : NodeId} (hc : c < t.nodes.size) :
    ∃ t', (Edit.remove c).run t = .ok () t' ∧
      (∀ i, Within t i c → (t'.Found i ↔ t.Found i ∧ RootStays t c)) ∧
      ∀ i, ¬ Within t i c → (t'.Found i ↔ t.Found i) := by
  have hf := h.forest
  have hf' := hf.detached c
  refine ⟨t.detached c, ?_, fun i hi => ?_, fun i hi => ?_⟩
  · rw [Edit.remove, run_detach hf, if_pos hc]
  · rw [hf'.found_iff, hf.found_iff, live_detached_of_within hf hi]
  · rw [hf'.found_iff, hf.found_iff, live_detached_of_not_within hf hi]

/-- A root with a child; the child is removed. -/
theorem found_of_remove_child :
    let a : Node := { Node.element "a" with children := [1] }
    let b : Node := { Node.element "b" with id := 1, parent := some 0 }
    let t : Tree := { nodes := #[a, b], root := some 0 }
    Reachable t ∧ 1 < t.nodes.size ∧
      ∃ t', (Edit.remove 1).run t = .ok () t' ∧
        (∀ i, Within t i 1 → (t'.Found i ↔ t.Found i ∧ RootStays t 1)) ∧
        ∀ i, ¬ Within t i 1 → (t'.Found i ↔ t.Found i) := by
  intro a b t
  have h : Reachable t :=
    .done (c := .appendChild 0 1) (.done (c := .setRoot 0) reachable_pair rfl) rfl
  exact ⟨h, by decide, found_of_remove h (by decide)⟩

/-- A root that has a parent is the root also after it has been removed, so that it is found. -/
theorem found_of_remove_root :
    let a : Node := { Node.element "a" with children := [1] }
    let b : Node := { Node.element "b" with id := 1, parent := some 0 }
    let t : Tree := { nodes := #[a, b], root := some 1 }
    Reachable t ∧ ∃ t', (Edit.remove 1).run t = .ok () t' ∧
      1 ∈ t'.find (·.isNamed "b") ∧ (Edit.select "b").run t' = .ok [1] t' := by
  intro a b t
  have h : Reachable t :=
    .done (c := .setRoot 1) (.done (c := .appendChild 0 1) reachable_pair rfl) rfl
  exact ⟨h, _, rfl, by decide, rfl⟩

end BookMarkup.Tree
