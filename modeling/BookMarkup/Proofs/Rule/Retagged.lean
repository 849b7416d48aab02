import BookMarkup.Proofs.Document.Reading
import BookMarkup.Proofs.Rule.Idle

/-!
Renaming elements by any list of pairs. A pair sees the tags that the pairs before it gave, so that
tags may pass through several pairs, also back to one that they had. Main statement: the rule gives
every live element the tag that the pairs lead to, counts the single steps on the way and leaves all
else alone; if no pair gives a tag that another one takes away, there is nothing left to rename.
-/

namespace BookMarkup.Rule

open BookMarkup.Tree

/-- What renaming makes of `t`. Every live tag is passed through the pairs. -/
structure Retagged (t : Tree) (pairs : List (String × String)) (t' : Tree) : Prop where
  relabelled : Relabelled t t'
  contentOf : ∀ i, t.Live i → t'.contentOf i = (t.contentOf i).map (retagged (newTag pairs))
  rest : ∀ i, ¬ t.Live i → t'.contentOf i = t.contentOf i

/-- No pair gives a tag that one of the pairs takes away. -/
def Settling (pairs : List (String × String)) : Prop :=
  ∀ p ∈ pairs, ∀ q ∈ pairs, p.2 ∉ (Selector.names q.1).flatten

variable {pairs : List (String × String)}

theorem newTag_eq_or (pairs : List (String × String)) (tag : String) :
    newTag pairs tag = tag ∨ ∃ p ∈ pairs, newTag pairs tag = p.2 := by
  induction pairs generalizing tag with
  | nil => exact .inl rfl
  | cons p pairs ih =>
      rw [newTag]
      rcases ih (if tag ∈ (Selector.names p.1).flatten then p.2 else tag) with h | ⟨q, hq, h⟩
      · rw [h]
        split
        · exact .inr ⟨p, List.mem_cons_self, rfl⟩
        · exact .inl rfl
      · exact .inr ⟨q, List.mem_cons_of_mem p hq, h⟩

/-- A tag that has passed through the pairs is none that they take away. -/
theorem Settling.newTag_notMem (hs : Settling pairs) (tag : String) :
    ∀ q ∈ pairs, newTag pairs tag ∉ (Selector.names q.1).flatten := by
  induction pairs generalizing tag with
  | nil => simp
  | cons p pairs ih =>
      have hs' : Settling pairs := fun q hq r hr =>
        hs q (List.mem_cons_of_mem p hq) r (List.mem_cons_of_mem p hr)
      refine List.forall_mem_cons.2 ⟨?_, ih hs' _⟩
      rw [newTag]
      rcases newTag_eq_or pairs (if tag ∈ (Selector.names p.1).flatten then p.2 else tag) with
        h | ⟨q, hq, h⟩
      · rw [h]
        split
        · exact hs p List.mem_cons_self p List.mem_cons_self
        · next hnot => exact hnot
      · rw [h]
        exact hs q (List.mem_cons_of_mem p hq) p List.mem_cons_self

section Retagged

variable {t t' : Tree} (h : Retagged t pairs t')

include h

theorem Retagged.tag?_eq {i : NodeId} (hi : t'.Live i) :
    t'.tag? i = (t.tag? i).map (newTag pairs) :=
  tag?_eq_of_retagged (h.contentOf i (h.relabelled.live_iff.1 hi))

theorem Retagged.notMem (hs : Settling pairs) {i : NodeId} {tag : String} (hi : t'.Live i)
    (ht : t'.tag? i = some tag) : ∀ q ∈ pairs, tag ∉ (Selector.names q.1).flatten := by
  rw [h.tag?_eq hi, Option.map_eq_some_iff] at ht
  obtain ⟨old, _, rfl⟩ := ht
  exact hs.newTag_notMem old

theorem Retagged.idle (hs : Settling pairs)
    (hpairs : ∀ p ∈ pairs, ∃ names, Selector.parse p.1 = .ok ⟨[names]⟩) :
    Idle (renameElements pairs).apply t' := by
  refine idle_renameEach fun p hp => ?_
  obtain ⟨names, hparse⟩ := hpairs p hp
  refine ⟨_, hparse, h.relabelled.proper.forest.select_eq_nil_iff.2 fun i hi ha => ?_⟩
  obtain ⟨tag, ht, hm⟩ := Selector.accepts_one_iff.1 ha
  exact h.notMem hs hi ht p hp (Selector.flatten_names hparse ▸ hm)

end Retagged

theorem exists_retagged {t : Tree} (ht : Proper t)
    (hpairs : ∀ p ∈ pairs, ∃ names, Selector.parse p.1 = .ok ⟨[names]⟩) :
    ∃ t', (renameElements pairs).apply.run t =
        .ok ((t.live.map Node.id).map (renamingsOf pairs t)).sum t' ∧ Retagged t pairs t' := by
  obtain ⟨t', hrun, hr, hlive, hdead⟩ := run_renameEach ht hpairs
  exact ⟨t', hrun, hr, hlive, hdead⟩

theorem settling_bookTags : Settling bookTags := by
  intro p hp q hq
  have hne : ∀ p ∈ bookTags, ∀ q ∈ bookTags, p.2 ≠ q.1 := by decide
  rw [Selector.flatten_names (parse_bookTags q hq), List.mem_singleton]
  exact hne p hp q hq

/-- The rule that renames elements, on a document and for any pairs of a path of one step and a tag:
it always succeeds, what it leaves is told on the document, and it has counted every single renaming.
If the pairs are settling, no live element has a tag left that they take away, and the rule does
nothing the second time. -/
theorem renameElements_of_parse {o : Reader.Options} {text : String} {d : Document}
    (h : Document.parse o text = .ok d)
    (hpairs : ∀ p ∈ pairs, ∃ names, Selector.parse p.1 = .ok ⟨[names]⟩) :
    ∃ t', (renameElements pairs).apply.run d.tree =
        .ok ((d.tree.live.map Node.id).map (renamingsOf pairs d.tree)).sum t' ∧
      Retagged d.tree pairs t' ∧
      (Settling pairs →
        (∀ i tag, t'.Live i → t'.tag? i = some tag →
          ∀ q ∈ pairs, tag ∉ (Selector.names q.1).flatten) ∧
        (renameElements pairs).apply.run t' = .ok 0 t') := by
  obtain ⟨t', hrun, ht'⟩ := exists_retagged (Document.proper_of_parse h) hpairs
  exact ⟨t', hrun, ht', fun hs => ⟨fun i tag hi ht => ht'.notMem hs hi ht, ht'.idle hs hpairs⟩⟩

/-- Two tags pass through two pairs each, and another one comes to be what one of these was. Without
the last pair no pair gives what one of them takes away. -/
theorem renameElements_of_chain : ∃ d t' u,
    Document.parse {} "<a><b/><c>t<b/></c></a>" = .ok d ∧
    (renameElements [("b|c", "d"), ("d", "e"), ("a", "b")]).apply.run d.tree = .ok 7 t' ∧
    Retagged d.tree [("b|c", "d"), ("d", "e"), ("a", "b")] t' ∧
    (renameElements [("b|c", "d"), ("b", "e")]).apply.run d.tree = .ok 3 u ∧
    (renameElements [("b|c", "d"), ("b", "e")]).apply.run u = .ok 0 u := by
  obtain ⟨n₁, n₂, n₃, n₄⟩ : Selector.names "b|c" = [["b", "c"]] ∧ Selector.names "d" = [["d"]] ∧
      Selector.names "a" = [["a"]] ∧ Selector.names "b" = [["b"]] := by
    refine ⟨?_, ?_, ?_, ?_⟩ <;> cbv
  have hchain : ∀ p ∈ [("b|c", "d"), ("d", "e"), ("a", "b")],
      ∃ names, Selector.parse p.1 = .ok ⟨[names]⟩ := by
    simp only [List.forall_mem_cons, List.not_mem_nil, false_imp_iff, implies_true, and_true]
    exact ⟨⟨_, Selector.parse_of_names n₁ rfl⟩, ⟨_, Selector.parse_of_names n₂ rfl⟩,
      ⟨_, Selector.parse_of_names n₃ rfl⟩⟩
  have hsettled : ∀ p ∈ [("b|c", "d"), ("b", "e")],
      ∃ names, Selector.parse p.1 = .ok ⟨[names]⟩ := by
    simp only [List.forall_mem_cons, List.not_mem_nil, false_imp_iff, implies_true, and_true]
    exact ⟨⟨_, Selector.parse_of_names n₁ rfl⟩, ⟨_, Selector.parse_of_names n₄ rfl⟩⟩
  have hs : Settling [("b|c", "d"), ("b", "e")] := by
    simp only [Settling, List.forall_mem_cons, List.not_mem_nil, false_imp_iff, implies_true,
      and_true, n₁, n₄]
    decide
  obtain ⟨d, hparse, hseven, hthree⟩ : ∃ d, Document.parse {} "<a><b/><c>t<b/></c></a>" = .ok d ∧
      ((d.tree.live.map Node.id).map
        (renamingsOf [("b|c", "d"), ("d", "e"), ("a", "b")] d.tree)).sum = 7 ∧
      ((d.tree.live.map Node.id).map (renamingsOf [("b|c", "d"), ("b", "e")] d.tree)).sum = 3 :=
    exists_ok_of_any (by decide +kernel)
  obtain ⟨t', hrun, ht', -⟩ := renameElements_of_parse hparse hchain
  obtain ⟨u, hrun', -, hagain⟩ := renameElements_of_parse hparse hsettled
  exact ⟨d, t', u, hparse, hseven ▸ hrun, ht', hthree ▸ hrun', (hagain hs).2⟩

end BookMarkup.Rule
