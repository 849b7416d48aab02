import BookMarkup.Proofs.Tree.Laid

/-!
The same document in two stores. What is live in a tree may stand under other numbers in another one;
the labels and links are the same then, up to these numbers, and so is everything that is told of
the live nodes. Every proper tree has such a copy without the nodes that are not live, in which the
numbers go in document order.
-/

namespace BookMarkup

def Node.renumbered (f : NodeId → NodeId) (n : Node) : Node :=
  { n with id := f n.id, parent := n.parent.map f, children := n.children.map f }

namespace Tree

/-- The live nodes of `t` are those of `t'`, under the numbers that `f` gives them. -/
structure Copied (f : NodeId → NodeId) (t t' : Tree) : Prop where
  root : t'.root = t.root.map f
  get? : ∀ i n, t.Live i → t.get? i = some n → t'.get? (f i) = some (n.renumbered f)

section Copied

variable {f : NodeId → NodeId} {t t' : Tree} {i : NodeId} (h : Copied f t t')

include h

theorem Copied.get?_eq (hf : Forest t) (hl : t.Live i) :
    t'.get? (f i) = (t.get? i).map (Node.renumbered f) := by
  obtain ⟨n, hn⟩ := Option.isSome_iff_exists.1 (get?_isSome_iff.2 (hl.lt hf))
  rw [h.get? i n hl hn, hn, Option.map_some]

theorem Copied.parentOf (hf : Forest t) (hl : t.Live i) :
    t'.parentOf (f i) = (t.parentOf i).map f := by
  rw [Tree.parentOf, h.get?_eq hf hl, Tree.parentOf]
  cases t.get? i <;> rfl

theorem Copied.childrenOf (hf : Forest t) (hl : t.Live i) :
    t'.childrenOf (f i) = (t.childrenOf i).map f := by
  rw [Tree.childrenOf, h.get?_eq hf hl, Tree.childrenOf]
  cases t.get? i <;> rfl

theorem Copied.contentOf (hf : Forest t) (hl : t.Live i) :
    t'.contentOf (f i) = (t.contentOf i).map fun n => { n with id := f i } := by
  obtain ⟨n, hn⟩ := Option.isSome_iff_exists.1 (get?_isSome_iff.2 (hl.lt hf))
  rw [Tree.contentOf, h.get? i n hl hn, Tree.contentOf, hn, ← hf.numbered hn]
  rfl

theorem Copied.tag? (hf : Forest t) (hl : t.Live i) : t'.tag? (f i) = t.tag? i := by
  rw [Tree.tag?, h.get?_eq hf hl, Tree.tag?]
  cases t.get? i <;> rfl

theorem Copied.attribute? (hf : Forest t) (hl : t.Live i) (name : String) :
    t'.attribute? (f i) name = t.attribute? i name := by
  rw [Tree.attribute?, h.get?_eq hf hl, Tree.attribute?]
  cases t.get? i <;> rfl

theorem Copied.within (hf : Forest t) {j : NodeId} (hj : t.Live j) (hw : Within t i j) :
    Within t' (f i) (f j) := by
  induction hw with
  | refl => exact .refl _
  | @step i k j hp hw ih =>
      have hl : t.Live i := (Within.step hp hw).live hj
      exact .step (by rw [h.parentOf hf hl, hp, Option.map_some]) (ih hj)

theorem Copied.live (hf : Forest t) (hl : t.Live i) : t'.Live (f i) := by
  obtain ⟨r, hr, hw⟩ := hl
  exact ⟨f r, by rw [h.root, hr, Option.map_some], h.within hf ⟨r, hr, .refl r⟩ hw⟩

theorem Copied.exists_live (hf : Forest t) (hf' : Forest t') {j : NodeId} (hl : t'.Live j) :
    ∃ i, t.Live i ∧ f i = j := by
  obtain ⟨r', hr', hw⟩ := hl
  rw [h.root] at hr'
  obtain ⟨r, hr, rfl⟩ := Option.map_eq_some_iff.1 hr'
  generalize hs : f r = s at hw
  induction hw with
  | refl => exact ⟨r, ⟨r, hr, .refl r⟩, hs⟩
  | @step j k s hp _ ih =>
      obtain ⟨i, hl, rfl⟩ := ih hs
      rw [← hf'.mem_childrenOf, h.childrenOf hf hl] at hp
      obtain ⟨c, hc, rfl⟩ := List.mem_map.1 hp
      exact ⟨c, hl.child (hf.mem_childrenOf.1 hc), rfl⟩

/-- The numbers of two live nodes differ in the copy: somewhere above them they would be siblings. -/
theorem Copied.injective (ht : Proper t) (hf' : Forest t') {j : NodeId} (hi : t.Live i)
    (hj : t.Live j) (he : f i = f j) : i = j := by
  have hf := ht.forest
  obtain ⟨r, hr, hw⟩ := hi
  have hlr : t.Live r := ⟨r, hr, .refl r⟩
  induction hw generalizing j with
  | refl r =>
      have hp := congrArg t'.parentOf he
      rw [h.parentOf hf hlr, ht.top hr, h.parentOf hf hj, Option.map_none] at hp
      by_cases hroot : t.root = some j
      · exact Option.some.inj (hr.symm.trans hroot)
      · obtain ⟨q, hq, _⟩ := hj.exists_parent hroot
        simp [hq] at hp
  | @step i p r hip hw ih =>
      have hi : t.Live i := (Within.step hip hw).live hlr
      have hp := congrArg t'.parentOf he
      rw [h.parentOf hf hi, hip, h.parentOf hf hj, Option.map_some] at hp
      obtain ⟨q, hjq, hq⟩ := Option.map_eq_some_iff.1 hp.symm
      have hlq : t.Live q := hj.parent ht hjq
      obtain rfl : p = q := ih hlq hq.symm hr hlr
      have hd := hf'.nodup_childrenOf (f p)
      rw [h.childrenOf hf hlq] at hd
      exact List.inj_on_of_nodup_map hd (hf.mem_childrenOf.2 hip) (hf.mem_childrenOf.2 hjq) he

theorem Copied.exists_parentOf (ht : Proper t) (hf' : Forest t') {j q : NodeId} (hl : t'.Live j)
    (hq : t'.parentOf j = some q) :
    ∃ i p, t.Live i ∧ t.Live p ∧ t.parentOf i = some p ∧ f i = j ∧ f p = q := by
  obtain ⟨i, hli, rfl⟩ := h.exists_live ht.forest hf' hl
  rw [h.parentOf ht.forest hli, Option.map_eq_some_iff] at hq
  obtain ⟨p, hp, rfl⟩ := hq
  exact ⟨i, p, hli, hli.parent ht hp, hp, rfl, rfl⟩

omit h in
theorem Forest.map_contentOf (hf : Forest t) (i : NodeId) :
    ((t.contentOf i).map fun n => { n with id := i }) = t.contentOf i := by
  rw [Tree.contentOf]
  cases hn : t.get? i with
  | none => rfl
  | some n => simp [Node.content, hf.numbered hn]

omit h in
theorem Copied.of_views (hroot : t'.root = t.root.map f)
    (hcont : ∀ i, t.Live i → t'.contentOf (f i) = (t.contentOf i).map fun n => { n with id := f i })
    (hpar : ∀ i, t.Live i → t'.parentOf (f i) = (t.parentOf i).map f)
    (hchild : ∀ i, t.Live i → t'.childrenOf (f i) = (t.childrenOf i).map f)
    (hf : Forest t) : Copied f t t' where
  root := hroot
  get? i n hl hn := by
    have hc := hcont i hl
    rw [Tree.contentOf, Tree.contentOf, hn, Option.map_some, Option.map_some] at hc
    obtain ⟨m, hm, hmn⟩ := Option.map_eq_some_iff.1 hc
    have hp := hpar i hl
    rw [parentOf_of_get? hm, parentOf_of_get? hn] at hp
    have hd := hchild i hl
    rw [childrenOf_of_get? hm, childrenOf_of_get? hn] at hd
    rw [hm, Node.renumbered, hf.numbered hn, ← hp, ← hd]
    cases m
    cases n
    simp only [Node.content, Node.mk.injEq] at hmn
    simp [hmn]

omit h in
theorem Copied.refl (t : Tree) : Copied id t t where
  root := by simp
  get? i n _ hn := by
    rw [id, hn]
    simp [Node.renumbered]

theorem Copied.trans (hf : Forest t) {g : NodeId → NodeId} {t'' : Tree} (h' : Copied g t' t'') :
    Copied (g ∘ f) t t'' where
  root := by rw [h'.root, h.root, Option.map_map]
  get? i n hl hn := by
    rw [Function.comp_apply, h'.get? (f i) _ (h.live hf hl) (h.get? i n hl hn)]
    simp [Node.renumbered]

end Copied

end Tree

end BookMarkup
