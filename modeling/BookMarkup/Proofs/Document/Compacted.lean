import BookMarkup.Proofs.Document.Written
import BookMarkup.Proofs.Tree.Compact

/-!
Writing a tree that has been changed and reading it again. Copies are written alike, so that it does
not matter which numbers the live nodes have, and what is not live is not written. Hence what is read
from the written form of a proper tree is its compact copy, if its live nodes are such as reading
makes them and stand where reading leaves them.
-/

namespace BookMarkup

namespace Tree

section Copied

variable {f : NodeId → NodeId} {t t' : Tree} {i : NodeId} (h : Copied f t t') (hf : Forest t)

include h hf

theorem Copied.text? (hl : t.Live i) : t'.text? (f i) = t.text? i := by
  rw [text?_eq, h.contentOf hf hl, text?_eq]
  cases t.contentOf i <;> rfl

theorem Copied.mixes {cs : List NodeId} (hl : ∀ c ∈ cs, t.Live c) :
    t'.mixes (cs.map f) = t.mixes cs := by
  have hone (c : NodeId) (hc : t.Live c) :
      ((t'.get? (f c)).map Node.isCharacterData).getD false =
        ((t.get? c).map Node.isCharacterData).getD false := by
    rw [h.get?_eq hf hc]
    cases t.get? c <;> rfl
  induction cs with
  | nil => rfl
  | cons c cs ih =>
      have hrest := ih fun d hd => hl d (List.mem_cons_of_mem c hd)
      simp only [Tree.mixes, List.map_cons, List.any_cons] at hrest ⊢
      rw [hone c (hl c List.mem_cons_self), hrest]

/-- The written form does not tell the numbers. -/
theorem Copied.writtenNode (l : Layout) (hl : t.Live i) (levels depth : Nat) (spread : Bool)
    (xmlns : Option String) : l.writtenNode t' levels depth spread xmlns (f i) =
      l.writtenNode t levels depth spread xmlns i := by
  induction levels generalizing i depth spread xmlns with
  | zero => rfl
  | succ levels ih =>
      obtain ⟨n, hn⟩ := Option.isSome_iff_exists.1 (get?_isSome_iff.2 (hl.lt hf))
      have hn' := h.get? i n hl hn
      cases he : n.isElement with
      | false =>
          rw [l.writtenNode_leaf _ _ _ _ hn he, l.writtenNode_leaf _ _ _ _ hn' he]
          rfl
      | true =>
          have hlc (c : NodeId) (hc : c ∈ n.children) : t.Live c :=
            hl.child (hf.mem_childrenOf.1 (childrenOf_of_get? hn ▸ hc))
          have hchildren : (n.renumbered f).children = n.children.map f := rfl
          by_cases hc : n.children = []
          · rw [l.writtenNode_empty _ _ _ _ hn he hc,
              l.writtenNode_empty _ _ _ _ hn' he (by rw [hchildren, hc, List.map_nil])]
            rfl
          · rw [l.writtenNode_element _ _ _ _ hn he hc,
              l.writtenNode_element _ _ _ _ hn' he (by simpa [hchildren] using hc), hchildren,
              h.mixes hf hlc, List.flatMap_map]
            refine congrArg (Layout.writtenHead n xmlns ++ '>' :: ·) (congrArg (· ++ _) ?_)
            exact List.flatMap_congr fun c hm => congrArg _ (ih (hlc c hm) _ _ _)

theorem Copied.writtenTree (hf' : Forest t') (l : Layout) (xmlns : Option String) :
    l.writtenTree t' xmlns = l.writtenTree t xmlns := by
  cases hr : t.root with
  | none => rw [Layout.writtenTree, Layout.writtenTree, h.root, hr, Option.map_none]
  | some r =>
      have hl : t.Live r := ⟨r, hr, .refl r⟩
      obtain ⟨m, hm, hh⟩ := hf.exists_height (hl.lt hf)
      obtain ⟨m', hm', hh'⟩ := hf'.exists_height ((h.live hf hl).lt hf')
      have hroot : l.writtenNode t' t'.nodes.size 0 true xmlns (f r) =
          l.writtenNode t t.nodes.size 0 true xmlns r := calc
        _ = l.writtenNode t' (max m m' + 1) 0 true xmlns (f r) :=
          l.writtenNode_levels hf' hh' hm' (by omega) 0 true xmlns
        _ = l.writtenNode t (max m m' + 1) 0 true xmlns r := h.writtenNode hf l hl _ 0 true xmlns
        _ = l.writtenNode t t.nodes.size 0 true xmlns r :=
          l.writtenNode_levels hf hh (by omega) hm 0 true xmlns
      rw [Layout.writtenTree, Layout.writtenTree, h.root, hr, Option.map_some]
      simp only
      rw [hroot]

end Copied

theorem Settled.map {f : NodeId → NodeId} {t t' : Tree} {siblings : List NodeId}
    (h : Settled t siblings) (ht : ∀ i ∈ siblings, t'.text? (f i) = t.text? i)
    (hinj : ∀ i ∈ siblings, ∀ j ∈ siblings, f i = f j → i = j) : Settled t' (siblings.map f) where
  apart i j hij := by
    obtain ⟨pair, hpair, he⟩ := List.infix_map_iff.1 hij
    rw [eq_comm, List.map_eq_cons_iff] at he
    obtain ⟨a, _, rfl, rfl, he⟩ := he
    rw [List.map_eq_singleton_iff] at he
    obtain ⟨b, rfl, rfl⟩ := he
    rw [ht a (hpair.subset (by simp)), ht b (hpair.subset (by simp))]
    exact h.apart a b hpair
  blank i hi v hv hb := by
    obtain ⟨a, ha, rfl⟩ := List.mem_map.1 hi
    rw [ht a ha] at hv
    rcases h.blank a ha v hv hb with hone | ⟨j, rest, w, hs, hja, hw⟩
    · exact .inl (by rw [hone, List.map_singleton])
    · have hj : j ∈ siblings := hs ▸ List.mem_cons_self
      refine .inr ⟨f j, rest.map f, w, by rw [hs, List.map_cons], fun he => hja (hinj j hj a ha he),
        (ht j hj).trans hw⟩

/-! ### The compact copy -/

/-- A live part of a tree as reading leaves it: nodes as they are made, in their places, and with
names that can be written. -/
structure Readable (t : Tree) : Prop where
  proper : Proper t
  content : Legible t
  settled : ∀ i, t.Live i → Settled t (t.childrenOf i)
  named : ∀ i n, t.Live i → t.get? i = some n → n.isElement = true → n.Named

section Readable

variable {t : Tree} (h : Readable t)

include h

theorem Readable.whole_compact : t.compact.Whole where
  proper := h.proper.compact
  laid := h.proper.forest.laid_compact
  content j n hn := by
    have hf := h.proper.forest
    obtain ⟨i, hl, rfl⟩ := hf.exists_place (contentOf_isSome_iff.1 (by rw [hn]; rfl))
    rw [hf.copied_compact.contentOf hf hl, Option.map_eq_some_iff] at hn
    obtain ⟨m, hm, rfl⟩ := hn
    obtain ⟨c, hc, rfl⟩ := h.content i m hm
    exact ⟨c, hc, rfl⟩
  settled j := by
    have hf := h.proper.forest
    by_cases hj : j < t.compact.nodes.size
    · obtain ⟨i, hl, rfl⟩ := hf.exists_place hj
      have hlc (c : NodeId) (hc : c ∈ t.childrenOf i) : t.Live c :=
        hl.child (hf.mem_childrenOf.1 hc)
      rw [hf.copied_compact.childrenOf hf hl]
      exact (h.settled i hl).map (fun c hc => hf.copied_compact.text? hf (hlc c hc))
        fun c hc _ _ he => hf.place_injective (hlc c hc) he
    · rw [childrenOf_eq_nil_of_size_le (Nat.le_of_not_lt hj)]
      exact (growing_nil False _).toPending.placed.settled id

theorem Readable.named_compact : t.compact.Named := by
  intro m hm he
  obtain ⟨i, hl, n, hn, rfl⟩ : ∃ i, t.Live i ∧ ∃ n, t.get? i = some n ∧
      n.renumbered t.place = m := by
    simp only [compact, List.toList_toArray, List.mem_map] at hm
    obtain ⟨n, hn, rfl⟩ := hm
    obtain ⟨hg, hl⟩ := h.proper.forest.mem_live.1 hn
    exact ⟨n.id, hl, n, hg, rfl⟩
  exact h.named i n hl hn he

end Readable

end Tree

/-- What is read from a written document is the compact copy of its tree. -/
theorem Document.parse_print_of_readable (l : Layout) {d : Document} (h : d.tree.Readable) :
    Document.parse {} (l.print d) = .ok
      { tree := d.tree.compact
        standalone := if l.declaration then
          d.standalone.map fun value => String.ofList (Text.escapeValue value) else none } := by
  have hf := h.proper.forest
  have hprint : l.print d = l.print { d with tree := d.tree.compact } := by
    rw [← String.toList_inj, Layout.toList_print, Layout.toList_print, Layout.written,
      Layout.written, hf.copied_compact.writtenTree hf h.proper.compact.forest l d.xmlns]
  rw [hprint]
  exact parse_print_of_whole l (d := { d with tree := d.tree.compact }) h.whole_compact
    h.named_compact

end BookMarkup
