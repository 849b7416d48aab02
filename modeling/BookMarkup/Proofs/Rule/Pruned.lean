import BookMarkup.Proofs.Rule.Vocabulary

/-!
The rules that remove elements. A pruned tree has lost some nodes with all below them, and the nodes
that are left have kept their places. Hence a selector accepts the same nodes among those that are
left, and what is removed does not depend on the order of the selectors: a live node is lost exactly
if it is inside an element that one of them accepts.
-/

namespace BookMarkup.Rule

open BookMarkup.Tree

/-- The tree `t'` has lost nodes of `t`; those left have kept their parents and their order. -/
structure Pruned (t t' : Tree) : Prop where
  proper : Proper t'
  root : ∀ r, t'.root = some r → t.root = some r
  size : t'.nodes.size = t.nodes.size
  contentOf : ∀ i, t'.contentOf i = t.contentOf i
  live : ∀ i, t'.Live i → t.Live i
  parentOf : ∀ i, t'.Live i → t'.parentOf i = t.parentOf i
  childrenOf : ∀ p, ∃ left : NodeId → Bool, t'.childrenOf p = (t.childrenOf p).filter left

section Pruned

variable {t t' t'' : Tree}

theorem Pruned.refl (h : Proper t) : Pruned t t :=
  ⟨h, fun _ hr => hr, rfl, fun _ => rfl, fun _ hl => hl, fun _ _ => rfl,
    fun _ => ⟨fun _ => true, by simp⟩⟩

theorem Pruned.trans (h : Pruned t t') (h' : Pruned t' t'') : Pruned t t'' where
  proper := h'.proper
  root r hr := h.root r (h'.root r hr)
  size := h'.size.trans h.size
  contentOf i := (h'.contentOf i).trans (h.contentOf i)
  live i hl := h.live i (h'.live i hl)
  parentOf i hl := (h'.parentOf i hl).trans (h.parentOf i (h'.live i hl))
  childrenOf p := by
    obtain ⟨left, hleft⟩ := h.childrenOf p
    obtain ⟨left', hleft'⟩ := h'.childrenOf p
    exact ⟨_, by rw [hleft', hleft, List.filter_filter]⟩

theorem Pruned.tag?_eq (h : Pruned t t') (i : NodeId) : t'.tag? i = t.tag? i :=
  tag?_eq_of_contentOf (h.contentOf i)

/-- What is above a live node is the same in two trees in which the live nodes have the same
parents. -/
theorem within_iff_of_live (ht : Proper t) (ht' : Proper t')
    (hp : ∀ i < t.nodes.size, t'.Live i → t'.parentOf i = t.parentOf i) {i j : NodeId}
    (hi : i < t.nodes.size) (hl : t'.Live i) : Within t' i j ↔ Within t i j := by
  constructor
  · intro hw
    induction hw with
    | refl => exact .refl _
    | @step i j k hs _ ih =>
        have hs' : t.parentOf i = some j := hp i hi hl ▸ hs
        exact .step hs' (ih (ht.forest.parent_lt hs') (hl.parent ht' hs))
  · intro hw
    induction hw with
    | refl => exact .refl _
    | @step i j k hs _ ih =>
        have hs' : t'.parentOf i = some j := (hp i hi hl).trans hs
        exact .step hs' (ih (ht.forest.parent_lt hs) (hl.parent ht' hs'))

theorem Pruned.within_iff (h : Pruned t t') (ht : Proper t) {i j : NodeId} (hl : t'.Live i) :
    Within t' i j ↔ Within t i j :=
  within_iff_of_live ht h.proper (fun i _ hl => h.parentOf i hl)
    (h.size ▸ h.proper.lt_of_live hl) hl

theorem Pruned.thinned (h : Pruned t t') (ht : Proper t) : Thinned t t' where
  proper := h.proper
  root := h.root
  kept := .of_contentOf fun i n hn => (h.contentOf i).trans hn
  made := .of_size_le (Nat.le_of_eq h.size)
  live i _ hl := h.live i hl
  inside S _ i _ hl := by simp only [Inside, h.within_iff ht hl]

theorem Pruned.movesOnly (h : Pruned t t') (ht : Proper t) : MovesOnly (fun _ => False) t t' :=
  ⟨h.thinned ht, fun i _ => h.contentOf i, fun i _ hl _ => h.parentOf i hl⟩

theorem live_of_within (h : Proper t) {i c : NodeId} (hl : t.Live i) (hw : Within t i c) :
    t.Live c := by
  induction hw with
  | refl => exact hl
  | step hp _ ih => exact ih (hl.parent h hp)

/-- The nodes above a live node are left in their places, so that the same selectors accept it. -/
theorem Pruned.accepts_eq (h : Pruned t t') (s : Selector) {i : NodeId} (hl : t'.Live i) :
    s.accepts t' i = s.accepts t i :=
  (s.accepts_congr fun j hw =>
    ⟨(h.tag?_eq j).symm, (h.parentOf j (live_of_within h.proper hl hw)).symm⟩).symm

theorem Pruned.detached (h : Proper t) (c : NodeId) : Pruned t (t.detached c) where
  proper := h.detached c
  root := (Thinned.detached h c).root
  size := size_detached c
  contentOf := contentOf_detached h.forest c
  live i hl := ((live_detached h).1 hl).1
  parentOf i hl := by
    have hi := ((live_detached h).1 hl).2
    rw [parentOf_detached h.forest, if_neg]
    rintro rfl
    exact hi (.refl i)
  childrenOf p := ⟨_, childrenOf_detached h.forest c p⟩

theorem Pruned.childrenOf_eq_filter (h : Pruned t t') (ht : Proper t) {p : NodeId}
    {left : NodeId → Bool}
    (hleft : ∀ c, t.parentOf c = some p → (t'.parentOf c = some p ↔ left c = true)) :
    t'.childrenOf p = (t.childrenOf p).filter left := by
  obtain ⟨left', hleft'⟩ := h.childrenOf p
  rw [hleft']
  refine List.filter_congr fun c hc => ?_
  rw [Bool.eq_iff_iff, ← hleft c (ht.forest.mem_childrenOf.1 hc), ← h.proper.forest.mem_childrenOf,
    hleft', List.mem_filter, and_iff_right hc]

/-- A child of a node that is left is left with it, unless it is one of those that are removed. -/
theorem Pruned.parentOf_child_iff {S : NodeId → Prop} (h : Pruned t t')
    (hlive : ∀ i, t'.Live i ↔ t.Live i ∧ ¬ Inside t S i) {c p : NodeId} (hp : t'.Live p)
    (hc : t.parentOf c = some p) : t'.parentOf c = some p ↔ ¬ S c := by
  obtain ⟨hpl, hn⟩ := (hlive p).1 hp
  rw [← inside_child_iff hc hn]
  constructor
  · exact fun hc' => ((hlive c).1 (hp.child hc')).2
  · exact fun hnot => (h.parentOf c ((hlive c).2 ⟨hpl.child hc, hnot⟩)).trans hc

theorem Pruned.root_eq (h : Pruned t t') (ht : Proper t)
    (hl : ∀ r, t.root = some r → t'.Live r) : t'.root = t.root := by
  cases hr : t.root with
  | none => exact Option.eq_none_iff_forall_ne_some.2 fun r hr' => by simp [h.root r hr'] at hr
  | some r => exact (h.thinned ht).root_eq hr (hl r hr)

theorem Pruned.neighbours (h : Pruned t t') {i j p : NodeId} (hn : [i, j] <:+: t.childrenOf p)
    (hi : t'.parentOf i = some p) (hj : t'.parentOf j = some p) :
    [i, j] <:+: t'.childrenOf p := by
  obtain ⟨left, hleft⟩ := h.childrenOf p
  have hi := h.proper.forest.mem_childrenOf.2 hi
  have hj := h.proper.forest.mem_childrenOf.2 hj
  rw [hleft] at hi hj ⊢
  simpa [(List.mem_filter.1 hi).2, (List.mem_filter.1 hj).2] using hn.filter left

end Pruned

/-! ### Removing elements -/

theorem run_remove {t : Tree} (hf : Forest t) {id : NodeId} (hid : id < t.nodes.size) :
    (Edit.remove id).run t = .ok () (t.detached id) := by
  rw [Edit.remove, run_detach hf, if_pos hid]

theorem run_forM_remove {t : Tree} (h : Proper t) (ids : List NodeId)
    (hids : ∀ id ∈ ids, id < t.nodes.size) :
    ∃ t', (ids.forM Edit.remove).run t = .ok () t' ∧ Pruned t t' ∧
      (∀ i, t'.Live i ↔ t.Live i ∧ ¬ ∃ c ∈ ids, Within t i c) ∧
      ∀ i, t'.parentOf i = if i ∈ ids then none else t.parentOf i := by
  -- Nodes that are still to be removed may be lost already; both are told on the first tree.
  obtain ⟨t', hrun, hr, _, hl, hpar⟩ := run_forM Edit.remove
    (fun rest u => Pruned t u ∧ (∀ id ∈ rest, id < t.nodes.size) ∧
      (∀ i, (u.Live i ∧ ¬ ∃ c ∈ rest, Within t i c) ↔ t.Live i ∧ ¬ ∃ c ∈ ids, Within t i c) ∧
      ∀ i, (if i ∈ rest then none else u.parentOf i) = if i ∈ ids then none else t.parentOf i)
    (fun id rest u hinv => by
      obtain ⟨hr, hlt, hl, hpar⟩ := hinv
      have hid : id < u.nodes.size := hr.size ▸ hlt id List.mem_cons_self
      refine ⟨u.detached id, run_remove hr.proper.forest hid, hr.trans (.detached hr.proper id),
        fun i hi => hlt i (List.mem_cons_of_mem id hi), fun i => ?_, fun i => ?_⟩
      · rw [← hl i, live_detached hr.proper, and_assoc]
        refine and_congr_right fun hi => ?_
        rw [hr.within_iff h hi]
        simp only [List.exists_mem_cons_iff, not_or]
      · rw [← hpar i, parentOf_detached hr.proper.forest]
        by_cases hid : i = id
        · simp [hid]
        · simp [hid])
    ⟨.refl h, hids, fun _ => Iff.rfl, fun _ => rfl⟩
  exact ⟨t', hrun, hr, fun i => by simpa using hl i, fun i => by simpa using hpar i⟩

theorem run_tally_remove {t : Tree} (h : Proper t) (ids : List NodeId)
    (hids : ∀ id ∈ ids, id < t.nodes.size) :
    ∃ n t', (Edit.tally (fun id => do Edit.remove id; return 1) ids).run t = .ok n t' ∧
      Pruned t t' ∧ ∀ i, t'.Live i ↔ t.Live i ∧ ¬ ∃ c ∈ ids, Within t i c := by
  obtain ⟨t', hrun, hp, hl, _⟩ := run_forM_remove h ids hids
  exact ⟨ids.length, t', by rw [run_tally_one, hrun], hp, hl⟩

def Selected (paths : List String) (t : Tree) (c : NodeId) : Prop :=
  ∃ path ∈ paths, ∃ s, Selector.parse path = .ok s ∧ s.accepts t c = true

/-- What is within an element that a selector accepts is lost, and nothing else. -/
theorem run_removeEach {t : Tree} (h : Proper t) (paths : List String)
    (hpaths : ∀ path ∈ paths, ∃ s, Selector.parse path = .ok s) :
    ∃ n t', (removeEach paths).run t = .ok n t' ∧ Pruned t t' ∧
      ∀ i, t'.Live i ↔ t.Live i ∧ ¬ Inside t (Selected paths t) i := by
  induction paths generalizing t with
  | nil =>
      refine ⟨0, t, rfl, .refl h, fun i => ?_⟩
      simp [Inside, Selected]
  | cons path paths ih =>
      obtain ⟨s, hs⟩ := hpaths path List.mem_cons_self
      obtain ⟨n, t₁, hrun, hr, hl⟩ := run_tally_remove h (s.select t)
        fun id hid => h.lt_of_live (h.forest.mem_select.1 hid).1
      obtain ⟨m, t₂, hrest, hr', hl'⟩ :=
        ih hr.proper fun q hq => hpaths q (List.mem_cons_of_mem path hq)
      refine ⟨n + m, t₂, ?_, hr.trans hr', fun i => ?_⟩
      · simp only [removeEach, EStateM.run_bind, run_select hs, hrun, hrest, EStateM.run_pure]
      have hfirst (hi : t.Live i) : (∃ c ∈ s.select t, Within t i c) ↔
          ∃ c, s.accepts t c = true ∧ Within t i c := by
        refine exists_congr fun c => ?_
        rw [h.forest.mem_select, and_assoc]
        exact ⟨fun hc => hc.2, fun hc => ⟨live_of_within h hi hc.2, hc⟩⟩
      -- Above a live node nothing has changed, so that the other paths accept the same elements.
      have hrest (hi : t₁.Live i) : Inside t₁ (Selected paths t₁) i ↔
          Inside t (Selected paths t) i := by
        refine exists_congr fun c => ?_
        rw [hr.within_iff h hi]
        refine and_congr_left fun hw => ?_
        have hc := live_of_within hr.proper hi ((hr.within_iff h hi).2 hw)
        simp only [Selected, hr.accepts_eq _ hc]
      have hsplit : Inside t (Selected (path :: paths) t) i ↔
          (∃ c, s.accepts t c = true ∧ Within t i c) ∨ Inside t (Selected paths t) i := by
        simp only [Inside, Selected, List.exists_mem_cons_iff, hs, Except.ok.injEq,
          exists_eq_left', or_and_right, exists_or]
      rw [hl', hl, hsplit]
      constructor
      · rintro ⟨⟨hi, hn⟩, hn'⟩
        refine ⟨hi, not_or.2 ⟨mt (hfirst hi).2 hn, ?_⟩⟩
        exact mt (hrest ((hl i).2 ⟨hi, hn⟩)).2 hn'
      · rintro ⟨hi, hn⟩
        obtain ⟨hn, hn'⟩ := not_or.1 hn
        have hi' : t.Live i ∧ ¬ ∃ c ∈ s.select t, Within t i c := ⟨hi, mt (hfirst hi).1 hn⟩
        exact ⟨hi', mt (hrest ((hl i).2 hi')).1 hn'⟩

/-! ### The two rules -/

theorem names_prunedElements :
    Selector.names "bookinfo/date" = [["bookinfo"], ["date"]] ∧
      Selector.names "bookinfo/authorinitials" = [["bookinfo"], ["authorinitials"]] ∧
      Selector.names "mediaobject/caption" = [["mediaobject"], ["caption"]] := by
  refine ⟨?_, ?_, ?_⟩ <;> cbv

theorem parse_prunedElements : ∀ path ∈ prunedElements, ∃ s, Selector.parse path = .ok s := by
  obtain ⟨h₁, h₂, h₃⟩ := names_prunedElements
  simp only [prunedElements, List.forall_mem_cons, List.not_mem_nil, false_imp_iff, implies_true,
    and_true]
  exact ⟨⟨_, Selector.parse_of_names h₁ rfl⟩, ⟨_, Selector.parse_of_names h₂ rfl⟩,
    ⟨_, Selector.parse_of_names h₃ rfl⟩⟩

/-- An element with a tag that books do not have in a place like this. -/
def Unwanted (t : Tree) (c : NodeId) : Prop :=
  ∃ tag, t.tag? c = some tag ∧ ∃ p, t.parentOf c = some p ∧ ∃ outer, t.tag? p = some outer ∧
    (outer = "bookinfo" ∧ (tag = "date" ∨ tag = "authorinitials") ∨
      outer = "mediaobject" ∧ tag = "caption")

theorem selected_prunedElements_iff {t : Tree} {c : NodeId} :
    Selected prunedElements t c ↔ Unwanted t c := by
  obtain ⟨h₁, h₂, h₃⟩ := names_prunedElements
  simp only [Selected, prunedElements, List.exists_mem_cons_iff, List.mem_singleton,
    exists_eq_left, Selector.parse_of_names h₁ rfl, Selector.parse_of_names h₂ rfl,
    Selector.parse_of_names h₃ rfl, Except.ok.injEq, exists_eq_left', Selector.accepts_two_iff,
    Unwanted]
  constructor
  · rintro (⟨tag, ht, rfl, p, hp, outer, ho, rfl⟩ | ⟨tag, ht, rfl, p, hp, outer, ho, rfl⟩ |
      ⟨tag, ht, rfl, p, hp, outer, ho, rfl⟩)
    · exact ⟨_, ht, p, hp, _, ho, .inl ⟨rfl, .inl rfl⟩⟩
    · exact ⟨_, ht, p, hp, _, ho, .inl ⟨rfl, .inr rfl⟩⟩
    · exact ⟨_, ht, p, hp, _, ho, .inr ⟨rfl, rfl⟩⟩
  · rintro ⟨tag, ht, p, hp, outer, ho, ⟨rfl, rfl | rfl⟩ | ⟨rfl, rfl⟩⟩
    · exact .inl ⟨_, ht, rfl, p, hp, _, ho, rfl⟩
    · exact .inr (.inl ⟨_, ht, rfl, p, hp, _, ho, rfl⟩)
    · exact .inr (.inr ⟨_, ht, rfl, p, hp, _, ho, rfl⟩)

/-- No live element that one of the selectors accepts has an attribute listed beside it. -/
def Stripped (pairs : List (String × List String)) (t : Tree) : Prop :=
  ∀ p ∈ pairs, ∀ s, Selector.parse p.1 = .ok s → ∀ i, t.Live i → s.accepts t i = true →
    ∀ name ∈ p.2, t.attribute? i name = none

theorem names_prunedAttributes :
    Selector.names "orderedlist" = [["orderedlist"]] ∧
      Selector.names "programlisting|screen" = [["programlisting", "screen"]] ∧
      Selector.names "table|informaltable" = [["table", "informaltable"]] ∧
      Selector.names "entry" = [["entry"]] := by
  refine ⟨?_, ?_, ?_, ?_⟩ <;> cbv

/-- Attributes are removed from elements that no rule makes, and whose tags are exchanged at most
among themselves. -/
theorem parse_prunedAttributes : ∀ p ∈ prunedAttributes, ∃ tags,
    Selector.parse p.1 = .ok ⟨[tags]⟩ ∧ (∀ tag ∈ tags, tag ∉ madeTags) ∧
      (tags = ["programlisting", "screen"] ∨ ∀ tag ∈ tags, tag ∉ exchangedTags) := by
  obtain ⟨n₁, n₂, n₃, n₄⟩ := names_prunedAttributes
  simp only [prunedAttributes, List.forall_mem_cons, List.not_mem_nil, false_imp_iff, implies_true,
    and_true]
  exact ⟨⟨_, Selector.parse_of_names n₁ rfl, by decide, .inr (by decide)⟩,
    ⟨_, Selector.parse_of_names n₂ rfl, by decide, .inl rfl⟩,
    ⟨_, Selector.parse_of_names n₃ rfl, by decide, .inr (by decide)⟩,
    ⟨_, Selector.parse_of_names n₄ rfl, by decide, .inr (by decide)⟩⟩

theorem mem_touchedNames_of_dropped {tag name : String} (h : name ∈ dropped prunedAttributes tag) :
    name ∈ touchedNames := by
  obtain ⟨p, hp, _, hname⟩ := mem_dropped_iff.1 h
  have htouched : ∀ p ∈ prunedAttributes, ∀ name ∈ p.2, name ∈ touchedNames := by decide
  exact htouched p hp name hname

/-- What lies within an unwanted element is lost; the root is none, since it has no parent. The
attributes are gone from what is left. -/
theorem run_pruneMetadata {t : Tree} (h : Proper t) :
    ∃ n t₁ t₂, (pruneMetadata prunedElements prunedAttributes).apply.run t = .ok n t₂ ∧
      Pruned t t₁ ∧ (∀ i, t₁.Live i ↔ t.Live i ∧ ¬ Inside t (Unwanted t) i) ∧
      Relabelled t₁ t₂ ∧ Kept [] touchedNames t₁ t₂ ∧ Stripped prunedAttributes t₂ ∧
      ∀ i, t₁.Live i → t₂.contentOf i = (t₁.contentOf i).map (stripped prunedAttributes) := by
  obtain ⟨n, t₁, hrun, hp, hl⟩ := run_removeEach h prunedElements parse_prunedElements
  have honce (p) (hm : p ∈ prunedAttributes) : ∃ tags, Selector.parse p.1 = .ok ⟨[tags]⟩ :=
    (parse_prunedAttributes p hm).imp fun _ hs => hs.1
  obtain ⟨m, t₂, hrest, hr, hlive, hdead⟩ := run_removeAttributesEach hp.proper
    prunedAttributes fun p hm => (honce p hm).elim fun _ hs => ⟨_, hs⟩
  simp only [map_bared_listedFor honce] at hlive
  refine ⟨n + m, t₁, t₂, ?_, hp, fun i => ?_, hr, .of_attributes fun i n hn => ?_,
    fun p hm s hs i hl ha name hname => ?_, hlive⟩
  · simp only [pruneMetadata, EStateM.run_bind, hrun, hrest, EStateM.run_pure]
  · rw [hl]
    simp only [Inside, selected_prunedElements_iff]
  · by_cases hl : t₁.Live i
    · rw [hlive i hl, hn, Option.map_some, stripped]
      split
      · exact ⟨_, rfl, fun name hname =>
          Attributes.get?_without_of_notMem (mt mem_touchedNames_of_dropped hname)⟩
      · exact ⟨_, rfl, fun _ _ => rfl⟩
    · exact ⟨_, (hdead i hl).trans hn, fun _ _ => rfl⟩
  · obtain ⟨tags, hs', _⟩ := parse_prunedAttributes p hm
    obtain rfl : Selector.mk [tags] = s := Except.ok.inj (hs'.symm.trans hs)
    rw [Selector.accepts_one_iff, tag?_eq, hlive i (hr.live_iff.1 hl)] at ha
    rw [attribute?_eq, hlive i (hr.live_iff.1 hl)]
    cases hn : t₁.contentOf i with
    | none => rfl
    | some n =>
        obtain ⟨tag, ht, htags⟩ := ha
        rw [hn, Option.map_some, Option.bind_some, Node.tag?_eq_some_iff, stripped] at ht
        rw [Option.map_some, Option.bind_some, stripped]
        split at ht
        · next he =>
          rw [if_pos he]
          refine Attributes.get?_without_of_mem _ (mem_dropped_iff.2 ⟨p, hm, ?_, hname⟩)
          rw [Selector.flatten_names hs', show n.name = tag from ht.2]
          exact htags
        · next he => exact absurd ht.1 he

theorem run_columnSpecs {t : Tree} (h : Proper t) :
    ∃ n t', columnSpecs.apply.run t = .ok n t' ∧ Pruned t t' ∧
      ∀ i, t'.Live i ↔ t.Live i ∧ ¬ Inside t (fun c => t.tag? c = some "colspec") i := by
  have hn : Selector.names "colspec" = [["colspec"]] := by cbv
  obtain ⟨n, t', hrun, hp, hl⟩ := run_removeEach h ["colspec"] (by
    simp only [List.forall_mem_singleton]
    exact ⟨_, Selector.parse_of_names hn rfl⟩)
  refine ⟨n, t', hrun, hp, fun i => ?_⟩
  rw [hl]
  simp only [Inside, Selected, List.mem_singleton, exists_eq_left, Selector.parse_of_names hn rfl,
    Except.ok.injEq, exists_eq_left', Selector.accepts_one_iff, exists_eq_right]

end BookMarkup.Rule
