import BookMarkup.Proofs.Rule.Vocabulary
import BookMarkup.Proofs.Tree.Planted

/-!
The moves that rules are made of. A node is moved below a sibling, or out of its parent and next to
it, or it is new and gets a place. Each of them succeeds on a proper tree and leaves a rearranged
one, in which every node but the moved one has the parent that it had.
-/

namespace BookMarkup.Rule

open BookMarkup.Tree

/-- The siblings with `c` placed among them, `offset` places after `r`. -/
def beside (offset : Nat) (r c : NodeId) (siblings : List NodeId) : List NodeId :=
  siblings.take (siblings.idxOf r + offset) ++ c :: siblings.drop (siblings.idxOf r + offset)

theorem beside_zero {r : NodeId} {before : List NodeId} (h : r ∉ before) (c : NodeId)
    (after : List NodeId) : beside 0 r c (before ++ r :: after) = before ++ c :: r :: after := by
  simp [beside, List.idxOf_append_of_notMem h]

theorem beside_one {r : NodeId} {before : List NodeId} (h : r ∉ before) (c : NodeId)
    (after : List NodeId) : beside 1 r c (before ++ r :: after) = before ++ r :: c :: after := by
  simp [beside, List.idxOf_append_of_notMem h, List.take_append, List.drop_append,
    List.take_of_length_le]

/-- A node placed right before another one that then goes away has taken its place. -/
theorem filter_beside {r c : NodeId} {siblings : List NodeId} (hd : siblings.Nodup)
    (hr : r ∈ siblings) (hc : c ≠ r) :
    (beside 0 r c siblings).filter (· ≠ r) = siblings.map fun s => if s = r then c else s := by
  obtain ⟨before, after, rfl⟩ := List.append_of_mem hr
  have hrest := not_mem_of_nodup hd
  have kept {l : List NodeId} (hl : r ∉ l) : l.filter (· ≠ r) = l :=
    List.filter_eq_self.2 fun s hs => by simpa using ne_of_mem_of_not_mem hs hl
  have same {l : List NodeId} (hl : r ∉ l) : (l.map fun s => if s = r then c else s) = l :=
    (List.map_congr_left fun s hs => if_neg (ne_of_mem_of_not_mem hs hl)).trans (List.map_id' l)
  rw [beside_zero hrest.1, List.filter_append, List.map_append, kept hrest.1, same hrest.1,
    List.filter_cons_of_pos (by simpa using hc), List.filter_cons_of_neg (by simp), kept hrest.2,
    List.map_cons, if_pos rfl, same hrest.2]

section Moves

variable {t : Tree} (h : Proper t)

include h

theorem not_within_sibling {w c p : NodeId} (hw : t.parentOf w = some p)
    (hc : t.parentOf c = some p) (hwc : w ≠ c) : ¬ Within t w c := by
  intro hin
  cases hin with
  | refl => exact hwc rfl
  | step hs hin =>
      rw [hw, Option.some.injEq] at hs
      exact h.forest.not_within_parent hc (hs ▸ hin)

theorem run_appendChild_sibling {w c p : NodeId} {tag : String} (hw : t.parentOf w = some p)
    (hc : t.parentOf c = some p) (hwc : w ≠ c) (ht : t.tag? w = some tag)
    (hl : isLandmark tag = false) :
    ∃ t', (Edit.appendChild w c).run t = .ok () t' ∧ Rearranged t t' ∧
      t'.nodes.size = t.nodes.size ∧ (∀ i, t'.contentOf i = t.contentOf i) ∧
      (∀ i, t'.parentOf i = if i = c then some w else t.parentOf i) ∧
      ∀ i, t'.childrenOf i = (t.childrenOf i).filter (· ≠ c) ++ if i = w then [c] else [] := by
  have hin := not_within_sibling h hw hc hwc
  have hcs := lt_size_of_parentOf hc
  have hroot := h.root_ne_of_parentOf hc
  have hpar := parentOf_moved h.forest hcs hin (t.childrenOf w).length
  have hcont := contentOf_moved h.forest hin (t.childrenOf w).length
  refine ⟨_, run_appendChild_of_not_within h (lt_size_of_tag? ht) hcs hin, ?_,
    size_moved t _ _ _, hcont, hpar, childrenOf_moved_last h.forest (lt_size_of_tag? ht) hin⟩
  refine .of_detours h (h.moved ht hcs hroot hin _) ?_
    (.of_contentOf fun i n hn => (hcont i).trans hn)
    (.of_size_le (Nat.le_of_eq (size_moved t _ _ _))) fun S hS i _ => ?_
  · rw [root_moved, if_neg fun hc => hroot hc.2]
  · rw [hpar i]
    split
    · next hi =>
      refine .inr ⟨w, rfl, hS.not_of_tag? h hw ht hl, ?_⟩
      rw [hpar w, if_neg hwc, hi, hc, hw]
    · exact .inl rfl

theorem run_insertBeside_parent (offset : Nat) {r c w q : NodeId} {tag : String}
    (hr : t.parentOf r = some q) (hrc : r ≠ c) (hc : t.parentOf c = some w)
    (hw : t.parentOf w = some q) (ht : t.tag? w = some tag) (hl : isLandmark tag = false) :
    ∃ t', (Edit.insertBeside offset r c).run t = .ok () t' ∧ Rearranged t t' ∧
      t'.nodes.size = t.nodes.size ∧ (∀ i, t'.contentOf i = t.contentOf i) ∧
      (∀ i, t'.parentOf i = if i = c then some q else t.parentOf i) ∧
      ∀ i, t'.childrenOf i =
        if i = q then beside offset r c ((t.childrenOf i).filter (· ≠ c))
        else (t.childrenOf i).filter (· ≠ c) := by
  have hin : ¬ Within t q c := fun hin =>
    h.forest.not_within_parent hw (hin.trans (.step hc (.refl w)))
  have hcs := lt_size_of_parentOf hc
  have hroot := h.root_ne_of_parentOf hc
  obtain ⟨outer, ho⟩ := h.element hw
  have hrun := run_insertBeside_of_not_within h offset hrc hr hcs hroot hin
  have hpar := parentOf_moved h.forest hcs hin (((t.childrenOf q).filter (· ≠ c)).idxOf r + offset)
  have hcont := contentOf_moved h.forest hin
    (((t.childrenOf q).filter (· ≠ c)).idxOf r + offset)
  have hchild := childrenOf_moved h.forest (h.forest.parent_lt hr) hin
    (((t.childrenOf q).filter (· ≠ c)).idxOf r + offset)
  refine ⟨_, hrun, ?_, size_moved t _ _ _, hcont, hpar, fun i => ?_⟩
  · refine .of_shortcuts (h.moved ho hcs hroot hin _) ?_
      (.of_contentOf fun i n hn => (hcont i).trans hn)
      (.of_size_le (Nat.le_of_eq (size_moved t _ _ _))) (fun i _ j hj => ?_) fun S hS i _ => ?_
    · rw [root_moved, if_neg fun hc => hroot hc.2]
    · rw [hpar i] at hj
      split at hj
      · exact Option.some.inj hj ▸ lt_size_of_tag? ho
      · exact h.forest.parent_lt hj
    · rw [hpar i]
      split
      · next hi =>
        exact .inr ⟨w, hi ▸ hc, hS.not_of_tag? h hw ht hl, hw⟩
      · exact .inl rfl
  · rw [hchild]
    split
    · next hi => rw [hi, beside]
    · rfl

/-- Of all lists of children only one changes when a node gives its place to a new one. -/
theorem filter_beside_childrenOf {p c w : NodeId} (hc : t.parentOf c = some p) (hw : w ≠ c)
    (i : NodeId) :
    (if i = p then beside 0 c w (t.childrenOf i) else t.childrenOf i).filter (· ≠ c) =
      (t.childrenOf i).map fun s => if s = c then w else s := by
  split
  · next hip =>
    exact filter_beside (h.forest.nodup_childrenOf i) (h.forest.mem_childrenOf.2 (hip ▸ hc)) hw
  · next hip =>
    have hne : ∀ s ∈ t.childrenOf i, s ≠ c := by
      rintro s hs rfl
      rw [h.forest.mem_childrenOf, hc, Option.some.injEq] at hs
      exact hip hs.symm
    rw [List.filter_eq_self.2 fun s hs => by simpa using hne s hs]
    exact ((List.map_congr_left fun s hs => if_neg (hne s hs)).trans (List.map_id' _)).symm

/-! ### New nodes -/

variable {p : NodeId} (k : Nat)

theorem Rearranged.planted {outer : String} (ho : t.tag? p = some outer) {tag : String}
    (hm : tag ∈ madeTags) : Rearranged t (planted t p k (Node.element tag)) := by
  have hp := lt_size_of_tag? ho
  obtain ⟨hproper, hroot⟩ := Proper.planted h k (Node.element tag) ho
  refine .of_detours h hproper hroot (Kept.planted h hp k _) (fun i hi hlt => ?_)
    fun S _ i hi => .inl ?_
  · rw [eq_size_of_planted k _ hi hlt]
    exact ⟨tag, hm, tag?_planted_new h hp k _⟩
  · rw [parentOf_planted h hp, if_neg (Nat.ne_of_lt hi)]

theorem run_insertBefore_wrapper {c : NodeId} (hc : t.parentOf c = some p) (tag : String)
    (hm : tag ∈ madeTags) :
    ∃ t', (Edit.insertBefore c t.nodes.size).run (t.plant (Node.element tag)) = .ok () t' ∧
      Rearranged t t' ∧ t'.nodes.size = t.nodes.size + 1 ∧
      (∀ i, t'.contentOf i = if i = t.nodes.size
        then some { Node.element tag with id := t.nodes.size } else t.contentOf i) ∧
      (∀ i, t'.parentOf i = if i = t.nodes.size then some p else t.parentOf i) ∧
      ∀ i, t'.childrenOf i =
        if i = p then beside 0 c t.nodes.size (t.childrenOf i) else t.childrenOf i := by
  have hp := h.forest.parent_lt hc
  obtain ⟨outer, ho⟩ := h.element hc
  have hchild := childrenOf_planted h hp ((t.childrenOf p).idxOf c) (Node.element tag)
  refine ⟨_, run_insertBefore_new h (Node.element tag) hc, .planted h _ ho hm,
    size_planted _ _ p, contentOf_planted h hp _ _, parentOf_planted h hp _ _, fun i => ?_⟩
  rw [hchild]
  split
  · next hi => rw [hi, beside, Nat.add_zero]
  · rfl

end Moves

end BookMarkup.Rule
