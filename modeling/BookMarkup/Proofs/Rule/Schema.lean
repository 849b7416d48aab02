import BookMarkup.Proofs.Rule.Wrapped

/-!
What a run of all rules guarantees of the tree that it leaves. Each clause is brought about by one
rule and told on the tree after it; the stages carry it to the end of the run.
-/

namespace BookMarkup.Rule

open BookMarkup.Tree

/-- What a tree for books does not have, and what is in its cells, attributions and quotations. -/
structure InSchema (t : Tree) : Prop where
  tags : ∀ i ∈ t.live.map Node.id, ∀ tag,
    t.tag? i = some tag → tag ∉ ["simpara", "literal", "phrase", "textobject", "colspec"]
  places : ∀ path ∈ ["bookinfo/date", "bookinfo/authorinitials", "mediaobject/caption",
      "formalpara/para/screen|programlisting"],
    ∃ s, Selector.parse path = .ok s ∧ s.select t = []
  attributes : ∀ p ∈ [("orderedlist", ["numeration"]),
      ("screen|programlisting", ["linenumbering", "language"]),
      ("table|informaltable", ["frame", "rowsep", "colsep"]), ("entry", ["align", "valign"])],
    ∃ s, Selector.parse p.1 = .ok s ∧
      ∀ i ∈ s.select t, ∀ name ∈ p.2, t.attribute? i name = none
  headerCells : ∃ s, Selector.parse "thead/row/entry" = .ok s ∧
    ∀ e ∈ s.select t, ∃ c, t.childrenOf e = [c] ∧ t.tag? c = some "para"
  attributions : ∀ a ∈ t.live.map Node.id, t.tag? a = some "attribution" →
    t.childrenOf a = [] ∨ ∃ x, t.childrenOf a = [x] ∧ IsText t x
  quotations : ∀ q ∈ t.live.map Node.id, t.tag? q = some "blockquote" →
    t.root = some q ∨ ∃ p, t.parentOf q = some p ∧ t.tag? p = some "para"

theorem childrenOf_eq_singleton {t : Tree} (hf : Forest t) {p c : NodeId}
    (h : ∀ i, t.parentOf i = some p ↔ i = c) : t.childrenOf p = [c] := by
  have hmem (i : NodeId) : i ∈ t.childrenOf p ↔ i = c := hf.mem_childrenOf.trans (h i)
  have hd := hf.nodup_childrenOf p
  cases hl : t.childrenOf p with
  | nil => simpa [hl] using hmem c
  | cons x rest =>
      rw [hl] at hmem hd
      obtain rfl := (hmem x).1 List.mem_cons_self
      rw [List.cons.injEq, List.eq_nil_iff_forall_not_mem]
      refine ⟨rfl, fun y hy => (List.nodup_cons.1 hd).1 ?_⟩
      exact (hmem y).1 (List.mem_cons_of_mem x hy) ▸ hy

namespace Stages

variable {t t' : Tree} (s : Stages t t')

include s

theorem proper : Proper t' :=
  s.movesOnly_listed.thinned.proper

/-- No element has a tag that is to be exchanged, since no rule makes one with such a tag. -/
theorem tag_not_mem {i : NodeId} {tag : String} (hl : t'.Live i) (ht : t'.tag? i = some tag) :
    tag ∉ ["simpara", "literal", "phrase", "textobject", "colspec"] := by
  intro hm
  have hnot : ∀ tag ∈ ["simpara", "literal", "phrase", "textobject", "colspec"],
      tag ∉ exchangedTags ∧ tag ∉ madeTags := by decide
  have hold : ∀ tag ∈ ["simpara", "literal", "phrase", "textobject", "colspec"],
      tag ≠ "colspec" → tag ∈ bookTags.map Prod.fst := by decide
  obtain ⟨he, hmade⟩ := hnot tag hm
  by_cases hc : tag = "colspec"
  · subst hc
    obtain ⟨hlq, htq⟩ := s.finish.movesOnly.thinned.live_of_tag? hl ht he hmade
    exact ((s.finish.live i (s.quote.rearranged.proper.lt_of_live hlq)).1 hl).2 ⟨i, htq, .refl i⟩
  · obtain ⟨hlr, htr⟩ := s.thinned_renamed.live_of_tag? hl ht he hmade
    rw [s.opening.tag?_eq (s.opening.relabelled.live_iff.1 hlr), Option.map_eq_some_iff] at htr
    obtain ⟨old, _, rfl⟩ := htr
    exact bookTag_not_mem old (hold _ hm hc)

/-- An element that is neither moved nor wrapped by a rule for its tag has still the parent that it had
after the introductions, unless a cell gave it a paragraph. -/
theorem parentOf_opened {i p : NodeId} (hi : i < s.opened.nodes.size) (hl : t'.Live i)
    (hc : ¬ IsCode t' i) (hp : t'.parentOf i = some p) (hpt : t'.tag? p ≠ some "para")
    (hn : ∀ tag ∈ ["appendix", "calloutlist", "blockquote"], t'.tag? i ≠ some tag) :
    s.opened.parentOf i = some p := by
  have hif : i < s.formatted.nodes.size := s.format.relabelled.size ▸ hi
  have hil := s.list.thinned.kept.lt hif
  have hll := s.movesOnly_listed.thinned.live i hil hl
  have htag := s.movesOnly_listed.tag?_eq hil
  have hcl : ¬ IsCode s.listed i := fun h => hc (h.of_eq htag)
  have hpl : s.listed.parentOf i = some p := by
    rcases s.parentOf_listed hil hl fun tag hm ht => hn tag hm (htag.trans ht) with
      hsame | ⟨_, w, hw, hwt⟩
    · exact hsame.symm.trans hp
    · obtain rfl : p = w := Option.some.inj (hp.symm.trans hw)
      exact absurd hwt hpt
  rw [← s.format.relabelled.parentOf,
    ← s.list.parentOf i hif hll (mt (s.list.code i hif hll).2 hcl), hpl]

theorem not_unwanted {i : NodeId} (hl : t'.Live i) : ¬ Unwanted t' i := by
  rintro ⟨tag, ht, p, hp, outer, ho, hor⟩
  have hnot : (tag ∉ exchangedTags ∧ tag ∉ madeTags) ∧ (outer ∉ exchangedTags ∧ outer ∉ madeTags) ∧
      tag ∉ ["screen", "programlisting"] ∧ outer ≠ "para" ∧
      ∀ other ∈ ["appendix", "calloutlist", "blockquote"], other ≠ tag := by
    rcases hor with ⟨rfl, rfl | rfl⟩ | ⟨rfl, rfl⟩ <;> decide
  obtain ⟨⟨hte, htm⟩, ⟨hoe, hom⟩, hcode, hpara, hother⟩ := hnot
  obtain ⟨hlo, hto⟩ := s.thinned_opened.live_of_tag? hl ht hte htm
  obtain ⟨_, hpo⟩ := s.thinned_opened.live_of_tag? (hl.parent s.proper hp) ho hoe hom
  refine s.open'.wanted i hlo ⟨tag, hto, p, ?_, outer, hpo, hor⟩
  refine s.parentOf_opened (lt_size_of_tag? hto) hl (not_isCode_of_tag? ht hcode) hp ?_ ?_
  · rw [ho, ne_eq, Option.some.injEq]
    exact hpara
  · intro other hm
    rw [ht, ne_eq, Option.some.injEq]
    exact (hother other hm).symm

/-! #### Attributes -/

theorem isCode_opened {b : NodeId} (hl : t'.Live b) (hc : IsCode t' b) :
    s.opened.Live b ∧ IsCode s.opened b := by
  have hb : b < s.opened.nodes.size := s.opening.thinned.kept.lt (s.lt_of_isCode hc)
  have hbf : b < s.formatted.nodes.size := s.format.relabelled.size ▸ hb
  have hbl := s.list.thinned.kept.lt hbf
  have hll := s.movesOnly_listed.thinned.live b hbl hl
  have hcf := (s.list.code b hbf hll).1 (hc.of_eq (s.movesOnly_listed.tag?_eq hbl).symm)
  exact ⟨s.thinned_opened.live b hb hl, hcf.of_eq (s.format.relabelled.tag?_eq s.format.kept b).symm⟩

theorem ungained : Ungained ["format", "annotations"] s.opened t' :=
  ((s.format.ungained.mono (by simp)).trans s.format.kept
    (s.list.ungained.mono (by simp))).trans (s.format.kept.mono.trans s.list.thinned.kept)
    (s.movesOnly_listed.ungained _)

theorem stripped : Stripped prunedAttributes t' := by
  refine s.open'.stripped.later s.ungained (by decide) fun p hp sel hs i hl ha => ?_
  obtain ⟨tags, hs', hmade, htags⟩ := parse_prunedAttributes p hp
  obtain rfl : Selector.mk [tags] = sel := Except.ok.inj (hs'.symm.trans hs)
  rw [Selector.accepts_one_iff] at ha ⊢
  obtain ⟨tag, ht, hm⟩ := ha
  suffices h : s.opened.Live i ∧ ∃ tag, s.opened.tag? i = some tag ∧ tag ∈ tags from
    ⟨s.opening.thinned.proper.lt_of_live h.1, h⟩
  rcases htags with rfl | htags
  · obtain ⟨hlo, old, hto, hmo⟩ := s.isCode_opened hl ⟨tag, ht, by simpa [or_comm] using hm⟩
    exact ⟨hlo, old, hto, by simpa [or_comm] using hmo⟩
  · obtain ⟨hlo, hto⟩ := s.thinned_opened.live_of_tag? hl ht (htags tag hm) (hmade tag hm)
    exact ⟨hlo, tag, hto, hm⟩

theorem language {b : NodeId} (hl : t'.Live b) (hc : IsCode t' b) :
    t'.attribute? b "language" = none := by
  obtain ⟨hlo, hco⟩ := s.isCode_opened hl hc
  have hb : b < s.formatted.nodes.size :=
    s.format.relabelled.size ▸ s.opening.thinned.proper.lt_of_live hlo
  have hgone := s.list.ungained b hb "language" (by decide) (s.format.language hlo hco)
  exact s.movesOnly_listed.ungained [] b (s.list.thinned.kept.lt hb) "language" (by simp) hgone

/-! #### Cells, attributions and quotations -/

/-- What is directly in an element stays as it is after the rule for attributions, if there is nothing
in it that the last rules wrap, label or remove. -/
theorem parentOf_flattened_iff {p : NodeId} (hp : p < s.flattened.nodes.size) (hl : t'.Live p)
    (hn : s.flattened.tag? p ≠ some "para")
    (hc : ∀ c, s.flattened.parentOf c = some p →
      ∀ tag ∈ ["blockquote", "xref", "colspec"], s.flattened.tag? c ≠ some tag) (c : NodeId) :
    t'.parentOf c = some p ↔ s.flattened.parentOf c = some p := by
  have hquote := s.quote.parentOf_iff s.flatten.movesOnly.thinned.proper hp
    (s.movesOnly_flattened.thinned.live p hp hl) hn fun c h => hc c h _ (by simp)
  rw [← hquote]
  refine s.finish.parentOf_iff (s.quote.movesOnly.thinned.kept.lt hp) hl (fun d hd => ?_) c
  have hd' := (hquote d).1 hd
  rw [s.quote.movesOnly.tag?_eq (lt_size_of_parentOf hd')]
  exact ⟨hc d hd' _ (by simp), hc d hd' _ (by simp)⟩

theorem holdsPara {e : NodeId} (hl : t'.Live e) (he : IsHeaderCell t' e) : HoldsPara t' e := by
  have hback {i : NodeId} {tag : String} (hl : t'.Live i) (ht : t'.tag? i = some tag)
      (hn : tag ∈ ["entry", "row", "thead"]) : s.filled.tag? i = some tag := by
    have hnot : ∀ tag ∈ ["entry", "row", "thead"], tag ∉ exchangedTags ∧ tag ∉ madeTags := by decide
    exact (s.movesOnly_filled.thinned.live_of_tag? hl ht (hnot tag hn).1 (hnot tag hn).2).2
  have hparent {i p : NodeId} {tag : String} (hl : t'.Live i) (ht : s.filled.tag? i = some tag)
      (hn : tag ≠ "blockquote") (hp : t'.parentOf i = some p) : s.filled.parentOf i = some p := by
    rw [← s.movesOnly_filled.parentOf i (lt_size_of_tag? ht) hl ?_, hp]
    rw [ht, Option.some.injEq]
    exact hn
  obtain ⟨het, r, hr, hrt, head, hhead, hht⟩ := he
  have hrl := hl.parent s.proper hr
  have het₉ := hback hl het (by simp)
  have hrt₉ := hback hrl hrt (by simp)
  have hht₉ := hback (hrl.parent s.proper hhead) hht (by simp)
  have hcell := s.fill.isHeaderCell ⟨het₉, r, hparent hl het₉ (by decide) hr, hrt₉, head,
    hparent hrl hrt₉ (by decide) hhead, hht₉⟩
  have he₉ := lt_size_of_tag? het₉
  have he₁₀ := s.flatten.movesOnly.thinned.kept.lt he₉
  have het₁₀ := (s.flatten.movesOnly.tag?_eq he₉).trans het₉
  have hl₁₀ := s.movesOnly_flattened.thinned.live e he₁₀ hl
  have hl₉ := s.movesOnly_filled.thinned.live e he₉ hl
  obtain ⟨c, hct, hc⟩ := s.fill.filled e
    (s.fill.movesOnly.thinned.live e (lt_size_of_tag? hcell.1) hl₉) hcell
  have hc₁₀ (i : NodeId) : s.flattened.parentOf i = some e ↔ i = c := by
    rw [s.flatten.parentOf_iff he₉ hl₁₀ (by simp [het₉]), hc]
  have hct₁₀ := (s.flatten.movesOnly.tag?_eq (lt_size_of_tag? hct)).trans hct
  refine ⟨c, (s.movesOnly_filled.tag?_eq (lt_size_of_tag? hct)).trans hct, fun i => ?_⟩
  rw [s.parentOf_flattened_iff he₁₀ hl (by simp [het₁₀]) fun d hd tag hm => ?_, hc₁₀]
  obtain rfl := (hc₁₀ d).1 hd
  rw [hct₁₀, ne_eq, Option.some.injEq]
  rintro rfl
  simp at hm

theorem parentOf_attribution_iff {a : NodeId} (hl : t'.Live a)
    (ha : t'.tag? a = some "attribution") (c : NodeId) :
    t'.parentOf c = some a ↔ s.flattened.parentOf c = some a := by
  obtain ⟨hl₉, ha₉⟩ := s.movesOnly_filled.thinned.live_of_tag? hl ha (by decide) (by decide)
  have has₁₀ := s.flatten.movesOnly.thinned.kept.lt (lt_size_of_tag? ha₉)
  have ha₁₀ := (s.flatten.movesOnly.tag?_eq (lt_size_of_tag? ha₉)).trans ha₉
  refine s.parentOf_flattened_iff has₁₀ hl (by simp [ha₁₀]) (fun d hd tag _ ht => ?_) c
  obtain ⟨⟨n, hn, hk⟩, _⟩ := s.flatten.flat a hl₉ ha₉ d hd
  simp [tag?_eq, hn, Node.tag?, Node.isElement, hk] at ht

theorem flat {a : NodeId} (hl : t'.Live a) (ha : t'.tag? a = some "attribution") : Flat t' a := by
  obtain ⟨hl₉, ha₉⟩ := s.movesOnly_filled.thinned.live_of_tag? hl ha (by decide) (by decide)
  have hiff := s.parentOf_attribution_iff hl ha
  intro c hc
  obtain ⟨htext, honly⟩ := s.flatten.flat a hl₉ ha₉ c ((hiff c).1 hc)
  exact ⟨htext.kept s.movesOnly_flattened.thinned.kept, fun d hd => honly d ((hiff d).1 hd)⟩

/-- That text is a line, since the rule for attributions has made it. -/
theorem isLine {a x : NodeId} (hl : t'.Live a) (ha : t'.tag? a = some "attribution")
    (hx : t'.parentOf x = some a) : IsLine t' x := by
  obtain ⟨_, ha₉⟩ := s.movesOnly_filled.thinned.live_of_tag? hl ha (by decide) (by decide)
  have has := s.flatten.movesOnly.thinned.kept.lt (lt_size_of_tag? ha₉)
  have hxa := (s.parentOf_attribution_iff hl ha x).1 hx
  exact (s.flatten.isLine (s.movesOnly_flattened.thinned.live a has hl)
    ((s.movesOnly_flattened.tag?_eq has).symm.trans ha) hxa).of_contentOf
    (s.movesOnly_flattened.contentOf x (lt_size_of_parentOf hxa))

theorem quotation {q p : NodeId} (hl : t'.Live q) (hq : t'.tag? q = some "blockquote")
    (hp : t'.parentOf q = some p) : t'.tag? p = some "para" := by
  have hthin := s.finish.movesOnly.thinned
  obtain ⟨hl₁₁, hq₁₁⟩ := hthin.live_of_tag? hl hq (by decide) (by decide)
  have hlt := lt_size_of_tag? hq₁₁
  have hp₁₁ : s.quoted.parentOf q = some p :=
    (s.finish.movesOnly.parentOf q hlt hl not_false).symm.trans hp
  have hpara := s.quote.tag?_parentOf s.flatten.movesOnly.thinned.proper hl₁₁ hq₁₁ hp₁₁
  exact (s.finish.movesOnly.tag?_eq (lt_size_of_tag? hpara)).trans hpara

theorem select_prunedElements {path : String} (hp : path ∈ prunedElements) :
    ∃ sel, Selector.parse path = .ok sel ∧ sel.select t' = [] := by
  obtain ⟨sel, hs⟩ := parse_prunedElements path hp
  refine ⟨sel, hs, List.eq_nil_iff_forall_not_mem.2 fun i hi => ?_⟩
  obtain ⟨hl, ha⟩ := s.proper.forest.mem_select.1 hi
  exact s.not_unwanted hl (selected_prunedElements_iff.1 ⟨path, hp, sel, hs, ha⟩)

theorem select_formal :
    ∃ sel, Selector.parse "formalpara/para/screen|programlisting" = .ok sel ∧
      sel.select t' = [] := by
  have hn : Selector.names "formalpara/para/screen|programlisting" =
      [["formalpara"], ["para"], ["screen", "programlisting"]] := by cbv
  refine ⟨_, Selector.parse_of_names hn rfl, List.eq_nil_iff_forall_not_mem.2 fun i hi => ?_⟩
  obtain ⟨hl, ha⟩ := s.proper.forest.mem_select.1 hi
  obtain ⟨tag, ht, hm, p, hp, outer, ho, hpara, _⟩ := Selector.accepts_three_iff.1 ha
  rw [List.mem_singleton] at hpara
  have hw := (s.parentOf_code hl ⟨tag, ht, hm⟩ hp).2.2.2
  simp [isListingWrapper, ho, hpara] at hw

theorem select_prunedAttributes {p : String × List String} (hp : p ∈ prunedAttributes) :
    ∃ sel, Selector.parse p.1 = .ok sel ∧
      ∀ i ∈ sel.select t', ∀ name ∈ p.2, t'.attribute? i name = none := by
  obtain ⟨tags, hs, _⟩ := parse_prunedAttributes p hp
  refine ⟨_, hs, fun i hi => ?_⟩
  obtain ⟨hl, ha⟩ := s.proper.forest.mem_select.1 hi
  exact s.stripped p hp _ hs i hl ha

/-- The code blocks have lost the numbers of their lines and their languages. -/
theorem select_codeBlocks : ∃ sel, Selector.parse "screen|programlisting" = .ok sel ∧
    ∀ i ∈ sel.select t', ∀ name ∈ ["linenumbering", "language"], t'.attribute? i name = none := by
  have hn : Selector.names "screen|programlisting" = [["screen", "programlisting"]] := by cbv
  have hn' : Selector.names "programlisting|screen" = [["programlisting", "screen"]] := by cbv
  refine ⟨_, Selector.parse_of_names hn rfl, fun i hi => ?_⟩
  rw [s.proper.forest.mem_select, Selector.accepts_one_iff] at hi
  obtain ⟨hl, hc⟩ := hi
  have hnumbers := s.stripped ("programlisting|screen", ["linenumbering"])
    (by simp [prunedAttributes]) _ (Selector.parse_of_names hn' rfl) i hl
    (Selector.accepts_one_iff.2 (by simpa [or_comm] using hc)) "linenumbering" (by simp)
  have hlanguage := s.language hl hc
  simp [hnumbers, hlanguage]

theorem inSchema : InSchema t' := by
  have hf := s.proper.forest
  have hlive {i : NodeId} (hi : i ∈ t'.live.map Node.id) : t'.Live i := hf.mem_map_live.1 hi
  refine ⟨fun i hi tag ht => s.tag_not_mem (hlive hi) ht, fun path hp => ?_,
    fun p hp => ?_, ?_, fun a ha ht => ?_, fun q hq ht => ?_⟩
  · rcases List.mem_append.1 (show path ∈ prunedElements ++ [_] from hp) with hp | hp
    · exact s.select_prunedElements hp
    · exact List.mem_singleton.1 hp ▸ s.select_formal
  · simp only [List.mem_cons, List.not_mem_nil, or_false] at hp
    rcases hp with rfl | rfl | rfl | rfl
    · exact s.select_prunedAttributes (by decide)
    · exact s.select_codeBlocks
    · exact s.select_prunedAttributes (by decide)
    · exact s.select_prunedAttributes (by decide)
  · have hn : Selector.names "thead/row/entry" = [["thead"], ["row"], ["entry"]] := by cbv
    refine ⟨_, Selector.parse_of_names hn rfl, fun e he => ?_⟩
    rw [hf.mem_select, accepts_headerCell_iff] at he
    obtain ⟨c, hct, hc⟩ := s.holdsPara he.1 he.2
    exact ⟨c, childrenOf_eq_singleton hf hc, hct⟩
  · have hflat := s.flat (hlive ha) ht
    rw [or_iff_not_imp_left, ← ne_eq, childrenOf_ne_nil_iff hf]
    rintro ⟨c, hc⟩
    obtain ⟨htext, honly⟩ := hflat c hc
    exact ⟨c, childrenOf_eq_singleton hf fun i => ⟨honly i, fun hi => hi ▸ hc⟩, htext⟩
  · by_cases hr : t'.root = some q
    · exact .inl hr
    · obtain ⟨p, hp, _⟩ := (hlive hq).exists_parent hr
      exact .inr ⟨p, hp, s.quotation (hlive hq) ht hp⟩

end Stages

/-- A run that succeeds on a document that has been read leaves a tree in the schema. -/
theorem inSchema_of_run_bookRules {o : Reader.Options} {text : String} {d : Document} {n : Nat}
    {t' : Tree} (h : Document.parse o text = .ok d)
    (hrun : (runAll bookRules).run d.tree = .ok n t') : InSchema t' := by
  obtain ⟨_, s, _⟩ := exists_stages (Document.proper_of_parse h) hrun
  exact s.inSchema

/-- An aligned cell in a header comes out in the schema. -/
theorem inSchema_of_header_cell : ∃ d n t',
    Document.parse {} "<thead><row><entry align='left'>x</entry></row></thead>" = .ok d ∧
    (runAll bookRules).run d.tree = .ok n t' ∧ InSchema t' := by
  obtain ⟨d, n, t', hparse, hrun, _⟩ := exists_run_of_rewritten?
    "<thead><row><entry align='left'>x</entry></row></thead>" (P := fun _ => True)
    (by decide +kernel)
  exact ⟨d, n, t', hparse, hrun, inSchema_of_run_bookRules hparse hrun⟩

end BookMarkup.Rule
