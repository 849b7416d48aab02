import BookMarkup.Proofs.Tree.Outcome

/-!
Where a moved node ends up. It leaves its old place before the new one is counted, so that a move
among the same siblings is a move like any other. Main statement: after a move the node stands where
it was asked for, and all else is as it was, but for the root: a root is given up if it has no parent
when it is moved. A node that is moved next to another one is detached once before its new place is
sought and then once more, when it has no parent in any case.
-/

namespace BookMarkup.Tree

/-- What moving `child` below `parent` makes of `t`, where the children of `parent` are `siblings`
in the end. -/
structure Relocated (t : Tree) (parent child : NodeId) (siblings : List NodeId) (t' : Tree) :
    Prop where
  size : t'.nodes.size = t.nodes.size
  contentOf : ∀ i, t'.contentOf i = t.contentOf i
  parentOf : ∀ i, t'.parentOf i = if i = child then some parent else t.parentOf i
  siblings : t'.childrenOf parent = siblings
  left : ∀ i, i ≠ parent → t.parentOf child = some i →
    t'.childrenOf i = (t.childrenOf i).filter (· ≠ child)
  others : ∀ i, i ≠ parent → t.parentOf child ≠ some i → t'.childrenOf i = t.childrenOf i

theorem take_cons_drop_eq_insertIdx (siblings : List NodeId) (k : Nat) (c : NodeId) :
    siblings.take k ++ c :: siblings.drop k = siblings.insertIdx (min k siblings.length) c := by
  induction siblings generalizing k with
  | nil => simp
  | cons s siblings ih =>
      cases k with
      | zero => simp
      | succ k =>
          rw [List.take_succ_cons, List.drop_succ_cons, List.length_cons, Nat.succ_min_succ,
            List.insertIdx_succ_cons, ← ih, List.cons_append]

section Forest

variable {t : Tree} (hf : Forest t) {p c : NodeId}

include hf

/-! ### One move -/

theorem Forest.relocated_moved (hp : p < t.nodes.size) (hc : c < t.nodes.size)
    (hpc : ¬ Within t p c) (k : Nat) :
    Relocated t p c (((t.childrenOf p).filter (· ≠ c)).take k ++
      c :: ((t.childrenOf p).filter (· ≠ c)).drop k) (t.moved p k c) where
  size := size_moved t p k c
  contentOf := contentOf_moved hf hpc k
  parentOf := parentOf_moved hf hc hpc k
  siblings := by rw [childrenOf_moved hf hp hpc, if_pos rfl]
  left i hi _ := by rw [childrenOf_moved hf hp hpc, if_neg hi]
  others i hi hci := by
    rw [childrenOf_moved hf hp hpc, if_neg hi, hf.filter_childrenOf hci]

/-- A node that is detached first ends up like one that is not. -/
theorem Relocated.of_detached {siblings : List NodeId} {t' : Tree}
    (h : Relocated (t.detached c) p c siblings t') : Relocated t p c siblings t' where
  size := h.size.trans (size_detached c)
  contentOf i := (h.contentOf i).trans (contentOf_detached hf c i)
  parentOf i := by
    rw [h.parentOf, parentOf_detached hf]
    split <;> rfl
  siblings := h.siblings
  left i hi _ := by
    rw [h.others i hi (by simp [parentOf_detached hf]), childrenOf_detached hf]
  others i hi hci := by
    rw [h.others i hi (by simp [parentOf_detached hf]), childrenOf_detached hf,
      hf.filter_childrenOf hci]

theorem Forest.within_detached_iff {i : NodeId} : Within (t.detached c) i c ↔ Within t i c := by
  by_cases hi : Within t i c
  · have h := within_relink_of_within hf (parentOf_detached hf c) (by simp) hi (k := c)
    exact iff_of_true (h.2 (.inl ⟨hi, .refl c⟩)) hi
  · rw [within_relink_of_not_within (parentOf_detached hf c) hi]

/-! ### When a move succeeds, and what it leaves -/

theorem Forest.run_insertChild_eq_ok {k : Nat} {t' : Tree} :
    (Edit.insertChild p k c).run t = .ok () t' ↔
      p < t.nodes.size ∧ c < t.nodes.size ∧ ¬ Within t p c ∧ t' = t.moved p k c := by
  rw [run_insertChild hf]
  by_cases hpc : Within t p c
  · simp [hf.isAncestor_iff.2 hpc, hpc]
  · rw [if_neg fun ha => hpc (hf.isAncestor_iff.1 ha)]
    by_cases hc : c < t.nodes.size
    · by_cases hp : p < t.nodes.size
      · simp [hc, hp, hpc, eq_comm]
      · simp [hc, hp]
    · simp [hc]

/-- A node that is placed next to another one is detached, and then moved like any other. -/
theorem Forest.run_insertBeside_eq_ok {r : NodeId} {offset : Nat} (hrc : r ≠ c) {t' : Tree} :
    (Edit.insertBeside offset r c).run t = .ok () t' ↔
      ∃ p, t.parentOf r = some p ∧ c < t.nodes.size ∧ ¬ Within t p c ∧
        t' = (t.detached c).moved p (((t.childrenOf p).filter (· ≠ c)).idxOf r + offset) c := by
  rw [run_insertBeside hf offset hrc]
  by_cases hc : c < t.nodes.size
  · by_cases hr : r < t.nodes.size
    · rw [if_pos hc, if_pos hr]
      cases hp : t.parentOf r with
      | none => simp
      | some p =>
          simp only [(hf.detached c).run_insertChild_eq_ok, size_detached, hf.parent_lt hp, hc,
            hf.within_detached_iff, true_and, Option.some.injEq, exists_eq_left']
    · have hp := parentOf_eq_none_of_size_le (Nat.le_of_not_lt hr)
      simp [hr, hc, hp]
  · simp [hc]

theorem Forest.relocated_beside {r : NodeId} (offset : Nat) (hrc : r ≠ c) (hr : t.parentOf r = some p)
    (hc : c < t.nodes.size) (hpc : ¬ Within t p c) :
    ∃ before after, (t.childrenOf p).filter (· ≠ c) = before ++ r :: after ∧
      Relocated t p c (before ++ ((r :: after).take offset ++ c :: (r :: after).drop offset))
        ((t.detached c).moved p (((t.childrenOf p).filter (· ≠ c)).idxOf r + offset) c) := by
  have hmem : r ∈ (t.childrenOf p).filter (· ≠ c) := by
    simpa [hf.mem_childrenOf, hr] using hrc
  obtain ⟨before, after, hs⟩ := List.append_of_mem hmem
  have hplace : ((t.childrenOf p).filter (· ≠ c)).idxOf r = before.length := by
    have hd := (hf.nodup_childrenOf p).filter (· ≠ c)
    rw [hs, List.idxOf_append_of_notMem (not_mem_of_nodup (hs ▸ hd)).1, List.idxOf_cons_self,
      Nat.add_zero]
  have htwice : ((t.detached c).childrenOf p).filter (· ≠ c) = before ++ r :: after := by
    rw [childrenOf_detached hf, List.filter_filter, ← hs]
    simp only [Bool.and_self]
  have h := (hf.detached c).relocated_moved (by simpa using hf.parent_lt hr) (by simpa using hc)
    (mt hf.within_detached_iff.1 hpc) (before.length + offset)
  rw [htwice, List.take_length_add_append, List.drop_length_add_append, List.append_assoc] at h
  exact ⟨before, after, hs, hplace ▸ h.of_detached hf⟩

/-- A root that is detached has no parent when it is moved, and so it is the root no longer. -/
theorem Forest.root_moved_detached (k : Nat) :
    ((t.detached c).moved p k c).root = if t.root = some c then none else t.root := by
  rw [root_moved, parentOf_detached hf, if_pos rfl, root_detached]
  by_cases hr : t.root = some c
  · by_cases hc : t.parentOf c = none <;> simp [hr, hc]
  · simp [hr]

end Forest

/-- Where a move puts a node, and what it changes besides. -/
theorem relocated_of_reachable {t : Tree} (h : Reachable t) :
    (∀ p k c t', (Edit.insertChild p k c).run t = .ok () t' →
      Relocated t p c (((t.childrenOf p).filter (· ≠ c)).insertIdx
        (min k ((t.childrenOf p).filter (· ≠ c)).length) c) t' ∧
      t'.root = if t.parentOf c = none ∧ t.root = some c then none else t.root) ∧
    (∀ p c t', (Edit.appendChild p c).run t = .ok () t' →
      Relocated t p c ((t.childrenOf p).filter (· ≠ c) ++ [c]) t' ∧
      t'.root = if t.parentOf c = none ∧ t.root = some c then none else t.root) ∧
    (∀ r c t', r ≠ c → (Edit.insertBefore r c).run t = .ok () t' →
      (∃ p before after, t.parentOf r = some p ∧
        (t.childrenOf p).filter (· ≠ c) = before ++ r :: after ∧
        Relocated t p c (before ++ c :: r :: after) t') ∧
      t'.root = if t.root = some c then none else t.root) ∧
    (∀ r c t', r ≠ c → (Edit.insertAfter r c).run t = .ok () t' →
      (∃ p before after, t.parentOf r = some p ∧
        (t.childrenOf p).filter (· ≠ c) = before ++ r :: after ∧
        Relocated t p c (before ++ r :: c :: after) t') ∧
      t'.root = if t.root = some c then none else t.root) ∧
    ∀ r, (Edit.insertBefore r r).run t = .ok () t ∧ (Edit.insertAfter r r).run t = .ok () t := by
  have hf := h.forest
  refine ⟨fun p k c t' hrun => ?_, fun p c t' hrun => ?_, fun r c t' hrc hrun => ?_,
    fun r c t' hrc hrun => ?_, fun r => ?_⟩
  · obtain ⟨hp, hc, hpc, rfl⟩ := hf.run_insertChild_eq_ok.1 hrun
    rw [← take_cons_drop_eq_insertIdx]
    exact ⟨hf.relocated_moved hp hc hpc k, root_moved t p k c⟩
  · rw [run_appendChild] at hrun
    split at hrun
    · obtain ⟨hp, hc, hpc, rfl⟩ := hf.run_insertChild_eq_ok.1 hrun
      have hle : ((t.childrenOf p).filter (· ≠ c)).length ≤ (t.childrenOf p).length :=
        List.length_filter_le _ _
      have hmoved := hf.relocated_moved hp hc hpc (t.childrenOf p).length
      rw [List.take_of_length_le hle, List.drop_eq_nil_of_le hle] at hmoved
      exact ⟨hmoved, root_moved t p _ c⟩
    · simp at hrun
  · obtain ⟨p, hr, hc, hpc, rfl⟩ := (hf.run_insertBeside_eq_ok hrc).1 hrun
    obtain ⟨before, after, hs, hmoved⟩ := hf.relocated_beside 0 hrc hr hc hpc
    exact ⟨⟨p, before, after, hr, hs, hmoved⟩, hf.root_moved_detached _⟩
  · obtain ⟨p, hr, hc, hpc, rfl⟩ := (hf.run_insertBeside_eq_ok hrc).1 hrun
    obtain ⟨before, after, hs, hmoved⟩ := hf.relocated_beside 1 hrc hr hc hpc
    exact ⟨⟨p, before, after, hr, hs, hmoved⟩, hf.root_moved_detached _⟩
  · rw [Edit.insertBefore, Edit.insertBeside, if_pos rfl, Edit.insertAfter, Edit.insertBeside,
      if_pos rfl]
    exact ⟨rfl, rfl⟩

theorem reachable_siblings : Reachable
    { nodes := #[{ Node.element "a" with children := [1, 2] },
        { Node.element "b" with id := 1, parent := some 0 },
        { Node.element "c" with id := 2, parent := some 0 }] } :=
  have created : Reachable { nodes := #[Node.element "a", { Node.element "b" with id := 1 },
      { Node.element "c" with id := 2 }] } := .done (c := .create (Node.element "c")) reachable_pair rfl
  .done (c := .appendChild 0 2) (.done (c := .appendChild 0 1) created rfl) rfl

/-- Two siblings change places. -/
theorem relocated_of_sibling :
    let a : Node := { Node.element "a" with children := [1, 2] }
    let b : Node := { Node.element "b" with id := 1, parent := some 0 }
    let c : Node := { Node.element "c" with id := 2, parent := some 0 }
    let t : Tree := { nodes := #[a, b, c], root := some 0 }
    Reachable t ∧ ∃ t', (Edit.insertBefore 1 2).run t = .ok () t' ∧ t'.root = some 0 ∧
      Relocated t 0 2 [2, 1] t' := by
  intro a b c t
  have h : Reachable t := .done (c := .setRoot 0) reachable_siblings rfl
  obtain ⟨-, -, hbefore, -⟩ := relocated_of_reachable h
  refine ⟨h, _, rfl, ?_⟩
  obtain ⟨⟨p, before, after, hp, hs, hmoved⟩, hroot⟩ := hbefore 1 2 _ (by decide) rfl
  obtain rfl : 0 = p := Option.some.inj hp
  have hs : [1] = before ++ 1 :: after := hs
  obtain ⟨rfl, rfl⟩ : before = [] ∧ after = [] := by simpa [List.append_eq_cons_iff] using hs.symm
  exact ⟨hroot, hmoved⟩

/-- A root that has a parent is given up when it is placed before its sibling, though not when it is
moved there by its index. -/
theorem root_lost_before_sibling :
    let a : Node := { Node.element "a" with children := [1, 2] }
    let b : Node := { Node.element "b" with id := 1, parent := some 0 }
    let c : Node := { Node.element "c" with id := 2, parent := some 0 }
    let t : Tree := { nodes := #[a, b, c], root := some 1 }
    Reachable t ∧ t.parentOf 1 = some 0 ∧
      (∃ t', (Edit.insertBefore 2 1).run t = .ok () t' ∧ t'.root = none) ∧
      ∃ t', (Edit.insertChild 0 0 1).run t = .ok () t' ∧ t'.root = some 1 := by
  intro a b c t
  have h : Reachable t := .done (c := .setRoot 1) reachable_siblings rfl
  exact ⟨h, rfl, ⟨_, rfl, rfl⟩, _, rfl, rfl⟩

end BookMarkup.Tree
