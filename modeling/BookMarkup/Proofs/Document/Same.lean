import BookMarkup.Proofs.Document.Outlined

/-!
Nodes that are the same in two trees, with all that is below them. Nodes of one outline are the same
wherever they have come to stand, and they stay the same when a node above them gets another label.
-/

namespace BookMarkup

namespace Tree

/-- The nodes say the same one by one, and so do those below them. -/
inductive Same (t t' : Tree) : List NodeId → List NodeId → Prop
  | nil : Same t t' [] []
  | cons {i i' : NodeId} {ids ids' : List NodeId} {n n' : Node} (hn : t.get? i = some n)
      (hn' : t'.get? i' = some n') (alike : n.Alike n')
      (below : Same t t' (t.childrenOf i) (t'.childrenOf i')) (beside : Same t t' ids ids') :
      Same t t' (i :: ids) (i' :: ids')

def elementsIn (t : Tree) (i : NodeId) : List NodeId :=
  (t.childrenOf i).filter fun c => (t.tag? c).isSome

section Same

variable {t t' : Tree} {i i' : NodeId} {ids ids' : List NodeId}

theorem alike_of_contentOf {content : Node}
    (h : t.contentOf i = some { content.content with id := i })
    (h' : t'.contentOf i' = some { content.content with id := i' }) :
    ∃ n n', t.get? i = some n ∧ t'.get? i' = some n' ∧ n.Alike n' := by
  obtain ⟨n, hn, he⟩ := Option.map_eq_some_iff.1 h
  obtain ⟨n', hn', he'⟩ := Option.map_eq_some_iff.1 h'
  refine ⟨n, n', hn, hn', ⟨?_, ?_, ?_, ?_⟩⟩
  · exact (congrArg Node.kind he).trans (congrArg Node.kind he').symm
  · exact (congrArg Node.name he).trans (congrArg Node.name he').symm
  · exact (congrArg Node.value he).trans (congrArg Node.value he').symm
  · exact (congrArg Node.attributes he).trans (congrArg Node.attributes he').symm

theorem Same.eq_singleton (h : Same t t' [i] ids') : ∃ i', ids' = [i'] := by
  cases h with
  | cons _ _ _ _ beside =>
      cases beside with
      | nil => exact ⟨_, rfl⟩

/-- A node without parent may get another label, as long as it is not among those that are compared. -/
theorem Same.update (hf : Forest t') (h : Same t t' ids ids') {top : NodeId} {f : Node → Node}
    (hr : Node.Relabels f) (hp : t'.parentOf top = none) (htop : top ∉ ids') :
    Same t (t'.update top f) ids ids' := by
  induction h with
  | nil => exact .nil
  | @cons i i' ids ids' n n' hn hn' alike _ _ ih ih' =>
      rw [List.mem_cons, not_or] at htop
      have hbelow : top ∉ t'.childrenOf i' := fun hm => by simp [hf.mem_childrenOf.1 hm] at hp
      refine .cons hn ?_ alike ?_ (ih' htop.2)
      · rw [get?_update, if_neg htop.1, hn']
      · rw [childrenOf_update hr]
        exact ih hbelow

end Same

end Tree

section Outlined

variable {o : Reader.Options} {t t' : Tree} {c : Outline} {ids ids' : List NodeId}

theorem tag?_of_label {i : NodeId} {content : Node}
    (hi : t.contentOf i = some { content.content with id := i }) : t.tag? i = content.tag? := by
  rw [Tree.tag?_eq, hi]
  rfl

theorem childrenOf_of_label (ht : Tree.Proper t) {i : NodeId} {content : Node}
    (he : content.isElement = false) (hi : t.contentOf i = some { content.content with id := i }) :
    t.childrenOf i = [] :=
  ht.childrenOf_eq_nil (by rw [tag?_of_label hi, Node.tag?, he]; rfl)

theorem Outlined.exists_of_element {tag : Tag} {inner rest : Outline}
    (h : Outlined o t (.element tag inner rest) ids) :
    ∃ attributes i beside, Reader.attributesOf o tag = .ok attributes ∧ ids = i :: beside ∧
      t.contentOf i = some
        { ({ Node.element (o.nameOf tag.name) with attributes } : Node).content with id := i } ∧
      Outlined o t inner (t.childrenOf i) ∧ Outlined o t rest beside := by
  cases h with
  | element ha hi hinner h => exact ⟨_, _, _, ha, rfl, hi, hinner, h⟩

/-- Nodes of one outline are the same in both trees. -/
theorem Outlined.same (ht : Tree.Proper t) (ht' : Tree.Proper t') (h : Outlined o t c ids)
    (h' : Outlined o t' c ids') : Tree.Same t t' ids ids' := by
  -- Both trees have a node for each part of the outline.
  have leaf {content : Node} {i i' : NodeId} {ids ids' : List NodeId}
      (he : content.isElement = false) (hi : t.contentOf i = some { content.content with id := i })
      (hi' : t'.contentOf i' = some { content.content with id := i' })
      (h : Tree.Same t t' ids ids') : Tree.Same t t' (i :: ids) (i' :: ids') := by
    obtain ⟨n, n', hn, hn', halike⟩ := Tree.alike_of_contentOf hi hi'
    refine .cons hn hn' halike ?_ h
    rw [childrenOf_of_label ht he hi, childrenOf_of_label ht' he hi']
    exact .nil
  induction h generalizing ids' with
  | nil =>
      cases h' with
      | nil => exact .nil
  | run hi _ ih =>
      cases h' with
      | run hi' h' => exact leaf rfl hi hi' (ih h')
  | leaf he hi _ ih =>
      cases h' with
      | leaf _ hi' h' => exact leaf he hi hi' (ih h')
  | element ha hi _ _ ihinner ih =>
      cases h' with
      | element ha' hi' hinner' h' =>
          obtain rfl := Except.ok.inj (ha.symm.trans ha')
          obtain ⟨n, n', hn, hn', halike⟩ := Tree.alike_of_contentOf hi hi'
          exact .cons hn hn' halike (ihinner hinner') (ih h')

theorem Outlined.elements {p keeps : Bool} (h : Outlined o t (c.kept o p keeps) ids) :
    Outlined o t (c.elements.kept o p false) (ids.filter fun i => (t.tag? i).isSome) := by
  have drop {content : Node} {i : NodeId} (ids : List NodeId) (he : content.isElement = false)
      (hi : t.contentOf i = some { content.content with id := i }) :
      (i :: ids).filter (fun i => (t.tag? i).isSome) = ids.filter fun i => (t.tag? i).isSome := by
    rw [List.filter_cons_of_neg]
    simp [tag?_of_label hi, Node.tag?, he]
  induction c generalizing ids with
  | nil =>
      cases h with
      | nil => exact .nil
  | run characters rest ih =>
      rw [Outline.kept] at h
      split at h
      · cases h with
        | run hi h =>
            rw [drop _ rfl hi]
            exact ih h
      · exact ih h
  | leaf content rest ih =>
      cases h with
      | leaf he hi h =>
          rw [drop _ he hi]
          exact ih h
  | element tag inner rest _ ih =>
      cases h with
      | element ha hi hinner h =>
          rw [List.filter_cons_of_pos (by simp [tag?_of_label hi, Node.tag?, Node.isElement, Node.element])]
          exact .element ha hi hinner (ih h)

end Outlined

end BookMarkup
