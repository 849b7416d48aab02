import BookMarkup.Proofs.Rule.Enclosed
import BookMarkup.Proofs.Rule.Note

/-!
One step of the rule for informal listings on proper trees: it always succeeds, and wrapping a block
loses nothing. What other rules need to know of a tree after the whole rule is a structure of its own.
-/

namespace BookMarkup.Rule

open BookMarkup.Tree

theorem IsCode.not_listingWrapper {t : Tree} {b : NodeId} (h : IsCode t b) :
    isListingWrapper (t.tag? b) = false := by
  obtain ⟨tag, ht, hm⟩ := h
  rw [ht]
  simp only [List.mem_cons, List.not_mem_nil, or_false] at hm
  rcases hm with rfl | rfl <;> rfl

def wrappedLabel (n : Node) : Node :=
  roleless (named "programlisting" n)

theorem tag?_of_wrappedLabel {t t' : Tree} {i : NodeId} {tag : String}
    (h : t'.contentOf i = (t.contentOf i).map wrappedLabel) (ht : t.tag? i = some tag) :
    t'.tag? i = some "programlisting" := by
  rw [tag?_eq] at ht
  obtain ⟨n, hn, ht⟩ := Option.bind_eq_some_iff.1 ht
  rw [tag?_eq, h, hn]
  exact Node.tag?_eq_some_iff.2 ⟨(Node.tag?_eq_some_iff.1 ht).1, rfl⟩

theorem run_wrapBlock_of_listed {t : Tree} {b : NodeId} (hb : b < t.nodes.size)
    (hs : ∀ p, t.parentOf b = some p → isListingWrapper (t.tag? p) = true) :
    (wrapBlock b).run t = .ok 0 t := by
  simp only [wrapBlock, EStateM.run_bind, run_parent? hb]
  cases hp : t.parentOf b with
  | none => rfl
  | some p =>
      simp only [EStateM.run_bind, EStateM.run_get, if_pos (hs p hp)]
      rfl

/-- The tree `t'` is `t` with a new element between the block `b` and its parent `p`. The block has its
new tag and no role; the element has the note that the role asked for. -/
structure Cased (t : Tree) (b p : NodeId) (t' : Tree) : Prop where
  enclosed : Enclosed "informalexample" t b p t'
  contentOf : ∀ i, t'.contentOf i =
    if i = t.nodes.size then
      some (noteIf (asksNote t b) { Node.element "informalexample" with id := t.nodes.size })
    else if i = b then (t.contentOf i).map wrappedLabel else t.contentOf i
  childrenOf : ∀ i, t'.childrenOf i =
    if i = t.nodes.size then [b]
    else (t.childrenOf i).map fun c => if c = b then t.nodes.size else c

theorem run_wrapBlock_of_loose {t : Tree} (h : Proper t) {b p : NodeId} (hb : IsCode t b)
    (hp : t.parentOf b = some p) (hs : isListingWrapper (t.tag? p) = false) :
    ∃ t', (wrapBlock b).run t = .ok 1 t' ∧ Cased t b p t' := by
  obtain ⟨old, hold, holdx⟩ := hb.exists_exchanged
  have hbs := lt_size_of_tag? hold
  obtain ⟨t₁, hrun₁, hr₁, hsize₁, hcont₁, hpar₁, hchild₁⟩ :=
    run_insertBefore_wrapper h hp "informalexample" (by decide)
  have hbw : b ≠ t.nodes.size := Nat.ne_of_lt hbs
  have hb₁ : t₁.tag? b = some old := by
    rw [tag?_eq, hcont₁, if_neg hbw, ← tag?_eq, hold]
  -- The block gets its new tag and moves into the wrapper.
  have hr₂ := Rearranged.update_name hr₁.proper "programlisting" hb₁ holdx (by decide)
  have hcont₂ := contentOf_update (Node.relabels_name "programlisting") t₁ b
  have hpar₂ := parentOf_update (Node.relabels_name "programlisting") t₁ b
  have hchild₂ := childrenOf_update (Node.relabels_name "programlisting") t₁ b
  have hw₂ : (t₁.update b fun n => { n with name := "programlisting" }).tag? t.nodes.size =
      some "informalexample" := by
    rw [tag?_eq, hcont₂, if_neg hbw, hcont₁, if_pos rfl]
    rfl
  obtain ⟨t₃, hrun₃, hr₃, hsize₃, hcont₃, hpar₃, hchild₃⟩ := run_appendChild_sibling hr₂.proper
    (by rw [hpar₂, hpar₁, if_pos rfl]) (by rw [hpar₂, hpar₁, if_neg hbw, hp]) hbw.symm hw₂
    (by decide)
  have hs₃ : t₃.nodes.size = t.nodes.size + 1 := by rw [hsize₃, size_update, hsize₁]
  obtain ⟨t₄, hrun₄, hr₄, hcont₄⟩ := run_propagateAnnotations hr₃.proper
    (hs₃ ▸ Nat.lt_succ_of_lt hbs) (hs₃ ▸ Nat.lt_succ_self _) hbw.symm
  have h₄ : Propagated b t.nodes.size t₃ t₄ := ⟨hr₄, _, noteIf_eq _, hcont₄⟩
  have hr := ((hr₁.trans hr₂).trans hr₃).trans (hr₄.rearranged hr₃.proper h₄.kept.mono)
  -- The new tag does not change what the role of the block asks for.
  have hnote : asksNote t₃ b = asksNote t b := by
    rw [asksNote, asksNote, attribute?_eq, attribute?_eq, hcont₃, hcont₂,
      if_pos rfl, hcont₁, if_neg hbw]
    cases t.contentOf b <;> rfl
  have hcont (i : NodeId) : t₄.contentOf i =
      if i = t.nodes.size then
        some (noteIf (asksNote t b) { Node.element "informalexample" with id := t.nodes.size })
      else if i = b then (t.contentOf i).map wrappedLabel else t.contentOf i := by
    rw [hcont₄, hnote, hcont₃, hcont₂, hcont₁]
    by_cases hiw : i = t.nodes.size
    · rw [if_pos hiw, if_pos hiw, if_pos hiw, if_neg fun hbi => hbw (hbi.trans hiw)]
      rfl
    rw [if_neg hiw, if_neg hiw, if_neg hiw]
    by_cases hib : i = b
    · rw [if_pos hib, if_pos hib, if_pos hib.symm, Option.map_map]
      rfl
    · rw [if_neg hib, if_neg hib, if_neg (Ne.symm hib), Option.map_id]
      rfl
  have hw₄ : t₄.tag? t.nodes.size = some "informalexample" := by
    rw [tag?_eq, hcont, if_pos rfl, Option.bind_some, tag?_noteIf]
    rfl
  refine ⟨t₄, ?_, ⟨hr, hr₄.size.trans hs₃, hw₄, hp, fun i => ?_⟩, hcont, fun i => ?_⟩
  · simp only [wrapBlock, EStateM.run_bind, run_parent? hbs, hp, EStateM.run_get, hs,
      Bool.false_eq_true, if_false, run_create, hrun₁, run_rename_of_tag? hb₁, hrun₃, hrun₄,
      EStateM.run_pure]
  · rw [hr₄.parentOf, hpar₃, hpar₂, hpar₁]
  · rw [hr₄.childrenOf, hchild₃, hchild₂, hchild₁, filter_beside_childrenOf h hp hbw.symm]
    by_cases hiw : i = t.nodes.size
    · rw [if_pos hiw, if_pos hiw, hiw, childrenOf_eq_nil_of_size_le (Nat.le_refl _)]
      rfl
    · rw [if_neg hiw, if_neg hiw, List.append_nil]

/-- A block either has a listing around it, or none at all, or else gets a new one. -/
theorem run_wrapBlock {t : Tree} (h : Proper t) {b : NodeId} (hb : IsCode t b) :
    ((wrapBlock b).run t = .ok 0 t ∧
      ∀ p, t.parentOf b = some p → isListingWrapper (t.tag? p) = true) ∨
    ∃ p t', (wrapBlock b).run t = .ok 1 t' ∧ isListingWrapper (t.tag? p) = false ∧
      Cased t b p t' := by
  by_cases hs : ∀ p, t.parentOf b = some p → isListingWrapper (t.tag? p) = true
  · obtain ⟨_, ht, _⟩ := hb
    exact .inl ⟨run_wrapBlock_of_listed (lt_size_of_tag? ht) hs, hs⟩
  · simp only [not_forall, Bool.not_eq_true] at hs
    obtain ⟨p, hp, hs⟩ := hs
    obtain ⟨t', hrun, hcased⟩ := run_wrapBlock_of_loose h hb hp hs
    exact .inr ⟨p, t', hrun, hs, hcased⟩

/-- After the rule for informal listings every code block with a parent is in an element that holds
listings, and has a new name and no role if it was not so before. No other node has a new label or
parent. -/
structure InformalListings (t t' : Tree) : Prop where
  listed : ∀ b, t.Live b → IsCode t b → ∀ p, t.parentOf b = some p →
    isListingWrapper (t.tag? p) = true ∧ t'.parentOf b = some p ∨
    isListingWrapper (t.tag? p) = false ∧ ∃ w, t.nodes.size ≤ w ∧ t'.parentOf b = some w ∧
      t'.tag? w = some "informalexample"
  parentOf : ∀ i < t.nodes.size, ¬ IsCode t i → t'.parentOf i = t.parentOf i
  label : ∀ i < t.nodes.size, t'.contentOf i =
    if t'.parentOf i = t.parentOf i then t.contentOf i else (t.contentOf i).map wrappedLabel
  new : ∀ w, t.nodes.size ≤ w → w < t'.nodes.size → t'.tag? w = some "informalexample"

section InformalListings

variable {t t' : Tree}

theorem InformalListings.tag?_eq (h : InformalListings t t') {i : NodeId} {tag : String}
    (ht : t.tag? i = some tag) :
    t'.tag? i = if t'.parentOf i = t.parentOf i then some tag else some "programlisting" := by
  have hlabel := h.label i (lt_size_of_tag? ht)
  split
  · next hp =>
    rw [if_pos hp] at hlabel
    exact (tag?_eq_of_contentOf hlabel).trans ht
  · next hp =>
    rw [if_neg hp] at hlabel
    exact tag?_of_wrappedLabel hlabel ht

theorem InformalListings.code (h : InformalListings t t') {i : NodeId} (hi : IsCode t i) :
    IsCode t' i := by
  obtain ⟨tag, ht, hm⟩ := hi
  have ht' := h.tag?_eq ht
  split at ht'
  · exact ⟨tag, ht', hm⟩
  · exact ⟨_, ht', by simp⟩

theorem InformalListings.tag?_of_not_code (h : InformalListings t t') {i : NodeId}
    (hi : i < t.nodes.size) (hc : ¬ IsCode t i) : t'.tag? i = t.tag? i := by
  have hlabel := h.label i hi
  rw [if_pos (h.parentOf i hi hc)] at hlabel
  exact tag?_eq_of_contentOf hlabel

theorem InformalListings.ungained (h : InformalListings t t') : Ungained ["annotations"] t t' := by
  intro i hi name _ hnone
  obtain ⟨n, hn⟩ := Option.isSome_iff_exists.1 (contentOf_isSome_iff.2 hi)
  rw [attribute?_eq, hn] at hnone
  rw [attribute?_eq, h.label i hi, hn]
  split
  · exact hnone
  · exact Attributes.get?_erase_eq_none hnone "role"

end InformalListings

end BookMarkup.Rule
