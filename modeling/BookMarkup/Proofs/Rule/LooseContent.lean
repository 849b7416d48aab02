import BookMarkup.Proofs.Rule.Schema

/-!
Loose content of parts. The rule for introductions leaves none, and the rules after it put nothing
loose into parts, but for one: a quotation that is directly in a part gets a paragraph around it there.
-/

namespace BookMarkup.Rule

open BookMarkup.Tree

section Parts

variable {t t' : Tree}

/-- A node is directly in `p` after a change if it was so before, as long as it is left and all nodes
that are left have kept their parents. -/
theorem parentOf_iff_of_live {c p : NodeId} (hp : t.Live p) (hp' : t'.Live p)
    (hl : t.Live c → t'.Live c) (hc : t'.Live c → t'.parentOf c = t.parentOf c) :
    t'.parentOf c = some p ↔ t.parentOf c = some p := by
  constructor
  · intro h
    rw [← hc (hp'.child h), h]
  · intro h
    rw [hc (hl (hp.child h)), h]

theorem HeaderCells.parentOf_iff (h : HeaderCells t t') (ht : Proper t) {c p : NodeId} {tag : String}
    (hc : c < t.nodes.size) (hl : t.Live p) (hp : t'.tag? p = some tag)
    (hn : tag ∉ ["entry", "para"]) : t'.parentOf c = some p ↔ t.parentOf c = some p := by
  rw [List.mem_pair, not_or] at hn
  refine ⟨fun hcp => h.parentOf_of_tag? hc hcp hp hn.2, fun hcp => ?_⟩
  have hlc := (h.rearranged.live_iff ht hc).2 (hl.child hcp)
  rw [h.movesOnly.parentOf c hc hlc ?_, hcp]
  rintro ⟨e, he, het⟩
  obtain rfl : p = e := Option.some.inj (hcp.symm.trans he)
  rw [h.tag?_of_tag? hp hn.2, Option.some.injEq] at het
  exact hn.1 het

/-- What is directly in an element that is neither a part nor pruned, or is no content of an
introduction, is there after the first rules as before. -/
theorem Opened.parentOf_iff {t₁ t₃ : Tree} (h : Opened t₁ t₃) {c p : NodeId}
    (hc : c < t₁.nodes.size) (hp : p < t₁.nodes.size) (hl : t₃.Live p)
    (hn : ∀ tag ∈ ["bookinfo", "mediaobject"], t₁.tag? p ≠ some tag)
    (hm : isIntroContent (t₁.tag? c) = false) :
    t₃.parentOf c = some p ↔ t₁.parentOf c = some p := by
  refine ⟨fun hcp => ?_, fun hcp => h.below p hp hl hn c hcp hm⟩
  rw [← h.parentOf c hc (hl.child hcp) hm, hcp]

namespace Stages

variable (s : Stages t t') {p q : NodeId}

include s

/-- The rules from the listings to the attributions neither take a child with a tag like this out of a
part nor put one in. -/
theorem parentOf_part_iff (hl : t'.Live p) (hp : t'.tag? p = some "part") {tag : String}
    (hq : s.opened.tag? q = some tag) (hex : tag ∉ exchangedTags)
    (hn : tag ∉ ["para", "screen", "programlisting", "appendix", "calloutlist"]) :
    s.flattened.parentOf q = some p ↔ s.opened.parentOf q = some p := by
  have hat {u : Tree} (h : Thinned u t') : u.Live p ∧ u.tag? p = some "part" :=
    h.live_of_tag? hl hp (by decide) (by decide)
  obtain ⟨hl₄, _⟩ := hat s.thinned_formatted
  obtain ⟨hl₆, _⟩ := hat s.movesOnly_listed.thinned
  obtain ⟨hl₈, _⟩ := hat (s.fill.movesOnly.thinned.trans s.movesOnly_filled.thinned)
  obtain ⟨_, hp₉⟩ := hat s.movesOnly_filled.thinned
  obtain ⟨hl₁₀, _⟩ := hat s.movesOnly_flattened.thinned
  simp only [List.mem_cons, List.not_mem_nil, or_false, not_or] at hn
  obtain ⟨hpara, hscreen, hlisting, happendix, hcallouts⟩ := hn
  have hq₄ : s.formatted.tag? q = some tag := (s.format.relabelled.tag?_eq s.format.kept q).trans hq
  have hqs₄ := lt_size_of_tag? hq₄
  have hqs₆ := s.list.thinned.kept.lt hqs₄
  have hq₆ : s.listed.tag? q = some tag := (s.list.thinned.kept.tag?_iff hqs₄ hex).2 hq₄
  have hqs₈ := s.hoist.movesOnly.thinned.kept.lt hqs₆
  have hcode : ¬ IsCode s.formatted q :=
    not_isCode_of_tag? hq₄ (by simp [hscreen, hlisting])
  calc
    s.flattened.parentOf q = some p ↔ s.filled.parentOf q = some p :=
      s.flatten.parentOf_iff (lt_size_of_tag? hp₉) hl₁₀ (by simp [hp₉]) q
    _ ↔ s.hoisted.parentOf q = some p :=
      s.fill.parentOf_iff s.hoist.rearranged.proper hqs₈ hl₈ hp₉ (by decide)
    _ ↔ s.listed.parentOf q = some p :=
      parentOf_iff_of_live hl₆ hl₈ (s.hoist.rearranged.live_iff s.list.thinned.proper hqs₆).2
        fun h => s.hoist.movesOnly.parentOf q hqs₆ h (by simp [hq₆, happendix, hcallouts])
    _ ↔ s.formatted.parentOf q = some p :=
      parentOf_iff_of_live hl₄ hl₆ (fun h => s.list.live q h (by simp [hq₄, hpara]))
        fun h => s.list.parentOf q hqs₄ h hcode
    _ ↔ s.opened.parentOf q = some p := by rw [s.format.relabelled.parentOf]

theorem parentOf_quotation (hl : t'.Live p) (hp : t'.tag? p = some "part")
    (hq : s.renamed.tag? q = some "blockquote") :
    s.flattened.parentOf q = some p ↔ s.renamed.parentOf q = some p := by
  obtain ⟨_, hp₁⟩ := s.thinned_renamed.live_of_tag? hl hp (by decide) (by decide)
  obtain ⟨hl₃, _⟩ := s.thinned_opened.live_of_tag? hl hp (by decide) (by decide)
  have hq₁ := lt_size_of_tag? hq
  have hq₃ : s.opened.tag? q = some "blockquote" := (s.opening.kept.tag?_eq hq₁).trans hq
  rw [s.parentOf_part_iff hl hp hq₃ (by decide) (by decide)]
  exact s.open'.parentOf_iff hq₁ (lt_size_of_tag? hp₁) hl₃ (by simp [hp₁]) (by rw [hq]; rfl)

theorem parentOf_quotation_read (hl : t'.Live p) (hp : t'.tag? p = some "part") :
    s.flattened.tag? q = some "blockquote" ∧ s.flattened.parentOf q = some p ↔
      t.tag? q = some "blockquote" ∧ t.parentOf q = some p := by
  have hlast := s.movesOnly_flattened.thinned
  have hlp : t.Live p := s.opening.relabelled.live_iff.1
    (s.thinned_renamed.live_of_tag? hl hp (by decide) (by decide)).1
  rw [← hlast.made.tag?_iff hlast.kept (by decide) (by decide),
    s.thinned_renamed.made.tag?_iff s.thinned_renamed.kept (by decide) (by decide),
    and_congr_right fun hq => s.parentOf_quotation hl hp hq, s.opening.relabelled.parentOf]
  refine and_congr_left fun hqp => ?_
  rw [s.opening.tag?_eq (hlp.child hqp)]
  cases t.tag? q with
  | none => rfl
  | some tag => simp [bookTag_eq_iff (show "blockquote" ∉ bookTags.map Prod.fst by decide) (by decide)]

/-- What was there for the rules after the listings is not loose, since introductions were made. -/
theorem size_le_of_loose {c : NodeId} {tag : String} (hl : t'.Live p) (hp : t'.tag? p = some "part")
    (hc : t'.parentOf c = some p) (ht : t'.tag? c = some tag)
    (hm : tag ∈ ["para", "itemizedlist"]) : s.listed.nodes.size ≤ c := by
  refine Nat.le_of_not_lt fun hi => ?_
  have hnot : ∀ tag ∈ ["para", "itemizedlist"], tag ∉ exchangedTags ∧
      tag ∉ ["screen", "programlisting"] ∧ tag ≠ "informalexample" ∧
      isIntroContent (some tag) = true ∧
      ∀ other ∈ ["appendix", "calloutlist", "blockquote"], tag ≠ other := by decide
  obtain ⟨hex, hcode, hne, hcontent, hother⟩ := hnot tag hm
  have hi₄ : c < s.formatted.nodes.size := by
    refine Nat.lt_of_not_le fun hle => hne ?_
    rw [s.movesOnly_listed.tag?_eq hi, s.list.new c hle hi, Option.some.injEq] at ht
    exact ht.symm
  have hi₃ : c < s.opened.nodes.size := s.format.relabelled.size ▸ hi₄
  have hcp : s.opened.parentOf c = some p := by
    refine s.parentOf_opened hi₃ (hl.child hc)
      (not_isCode_of_tag? ht hcode) hc (by simp [hp]) fun other ho => ?_
    rw [ht, ne_eq, Option.some.injEq]
    exact hother other ho
  obtain ⟨hlp, htp⟩ := s.thinned_opened.live_of_tag? hl hp (by decide) (by decide)
  have htidy := s.open'.tidied p hlp htp c hcp
  rw [(s.thinned_opened.kept.tag?_iff hi₃ hex).1 ht, hcontent] at htidy
  exact absurd htidy (by decide)

/-- A paragraph or list directly in a part at the end is a paragraph around a quotation. -/
theorem exists_quotation {c : NodeId} {tag : String} (hl : t'.Live p)
    (hp : t'.tag? p = some "part") (hc : t'.parentOf c = some p) (ht : t'.tag? c = some tag)
    (hm : tag ∈ ["para", "itemizedlist"]) : tag = "para" ∧
      ∃ q, s.flattened.tag? q = some "blockquote" ∧ s.flattened.parentOf q = some p ∧
        t'.parentOf q = some c := by
  have hcl : t'.Live c := hl.child hc
  have hle := s.size_le_of_loose hl hp hc ht hm
  have htext {u : Tree} (hk : Kept exchangedTags touchedNames u t') : ¬ IsText u c := by
    intro h
    obtain ⟨n, hn, hkind⟩ := h.kept hk
    simp [tag?_eq, hn, Node.tag?, Node.isElement, hkind] at ht
  -- Which rule has made the node?
  rcases Nat.lt_or_ge c s.quoted.nodes.size with hi₁₁ | hge
  case inr =>
    exact absurd (s.finish.new c hge hcl).1 (htext (.refl _ _ t'))
  have hl₁₁ := s.finish.movesOnly.thinned.live c hi₁₁ hcl
  rcases Nat.lt_or_ge c s.flattened.nodes.size with hi₁₀ | hge
  case inr =>
    obtain ⟨hct, q, r, hqt, hqr, hqc, hcr⟩ := s.quote.new c hge hi₁₁
    obtain rfl : p = r := Option.some.inj <| hc.symm.trans <|
      (s.finish.movesOnly.parentOf c hi₁₁ hcl not_false).trans hcr
    have hqt₁₁ : s.quoted.tag? q ≠ some "colspec" := by
      rw [s.quote.movesOnly.tag?_eq (lt_size_of_tag? hqt), hqt]
      decide
    rw [s.finish.movesOnly.tag?_eq hi₁₁, hct, Option.some.injEq] at ht
    exact ⟨ht.symm, q, hqt, hqr, s.finish.parentOf_child hi₁₁ hcl hqc hqt₁₁⟩
  have hl₁₀ := s.movesOnly_flattened.thinned.live c hi₁₀ hcl
  rcases Nat.lt_or_ge c s.filled.nodes.size with hi₉ | hge
  case inr =>
    exact absurd (s.flatten.new c hge hl₁₀).1.isText (htext s.movesOnly_flattened.thinned.kept)
  obtain ⟨hct, e, he, het⟩ := s.fill.new c (s.hoist.size ▸ hle) hi₉
  have hce : t'.parentOf c = some e := by
    rw [s.movesOnly_filled.parentOf c hi₉ hcl (by simp [hct]), he]
  obtain rfl : p = e := Option.some.inj (hc.symm.trans hce)
  rw [s.movesOnly_filled.tag?_eq (lt_size_of_tag? het), het] at hp
  simp at hp

theorem exists_para (hl : t'.Live p) (hp : t'.tag? p = some "part")
    (hq : s.flattened.tag? q = some "blockquote") (hqp : s.flattened.parentOf q = some p) :
    ∃ c, t'.parentOf q = some c ∧ t'.tag? c = some "para" ∧ t'.parentOf c = some p := by
  obtain ⟨hlp, htp⟩ := s.movesOnly_flattened.thinned.live_of_tag? hl hp (by decide) (by decide)
  have hps := lt_size_of_tag? htp
  have hps₁₁ := s.quote.movesOnly.thinned.kept.lt hps
  have hlq : s.flattened.Live q := hlp.child hqp
  rcases s.quote.quoted q hlq hq p hqp with ⟨_, hpara⟩ | ⟨c, hqc, hct, hcp⟩
  · rw [s.quote.movesOnly.tag?_eq hps, htp] at hpara
    simp at hpara
  · have hcs := lt_size_of_tag? hct
    have hc : t'.parentOf c = some p := s.finish.parentOf_child hps₁₁ hl hcp (by simp [hct])
    have hqt : s.quoted.tag? q ≠ some "colspec" := by
      rw [s.quote.movesOnly.tag?_eq (lt_size_of_tag? hq), hq]
      decide
    have hlc : t'.Live c := hl.child hc
    exact ⟨c, s.finish.parentOf_child hcs hlc hqc hqt, (s.finish.movesOnly.tag?_eq hcs).trans hct, hc⟩

end Stages

end Parts

/-- After a run that succeeds on a document that has been read, what is loose in a part are paragraphs
around the quotations that were directly in it, one for each. -/
theorem loose_of_run_bookRules {o : Reader.Options} {text : String} {d : Document} {n : Nat}
    {t' : Tree} (h : Document.parse o text = .ok d)
    (hrun : (runAll bookRules).run d.tree = .ok n t') {p : NodeId}
    (hl : p ∈ t'.live.map Node.id) (hp : t'.tag? p = some "part") :
    (∀ c ∈ t'.childrenOf p, ∀ tag ∈ ["para", "itemizedlist"], t'.tag? c = some tag →
      tag = "para" ∧ ∃ q, d.tree.tag? q = some "blockquote" ∧ d.tree.parentOf q = some p ∧
        t'.parentOf q = some c) ∧
    ∀ q, d.tree.tag? q = some "blockquote" → d.tree.parentOf q = some p →
      ∃ c, t'.parentOf q = some c ∧ t'.tag? c = some "para" ∧ t'.parentOf c = some p := by
  obtain ⟨_, s, _⟩ := exists_stages (Document.proper_of_parse h) hrun
  have hf := s.proper.forest
  have hl : t'.Live p := hf.mem_map_live.1 hl
  refine ⟨fun c hc tag hm ht => ?_, fun q hq hqp => ?_⟩
  · obtain ⟨hpara, q, hq, hqp, hqc⟩ := s.exists_quotation hl hp (hf.mem_childrenOf.1 hc) ht hm
    obtain ⟨hq, hqp⟩ := (s.parentOf_quotation_read hl hp).1 ⟨hq, hqp⟩
    exact ⟨hpara, q, hq, hqp, hqc⟩
  · obtain ⟨hq, hqp⟩ := (s.parentOf_quotation_read hl hp).2 ⟨hq, hqp⟩
    exact s.exists_para hl hp hq hqp

/-- The paragraph of a part goes into its introduction. -/
theorem loose_of_lone_paragraph : ∃ d n t',
    Document.parse {} "<part><para/><chapter/></part>" = .ok d ∧
    (runAll bookRules).run d.tree = .ok n t' ∧
    ∀ c ∈ t'.childrenOf 0, t'.tag? c ≠ some "itemizedlist" := by
  obtain ⟨d, n, t', hparse, hrun, hl, hp⟩ := exists_run_of_rewritten?
    "<part><para/><chapter/></part>"
    (P := fun t => 0 ∈ t.live.map Node.id ∧ t.tag? 0 = some "part") (by decide +kernel)
  refine ⟨d, n, t', hparse, hrun, fun c hc ht => ?_⟩
  have hpara := ((loose_of_run_bookRules hparse hrun hl hp).1 c hc _ (by simp) ht).1
  simp at hpara

/-- A quotation in a part makes a paragraph loose in it. -/
theorem para_in_part : ∃ d n t', Document.parse {} "<part><blockquote/></part>" = .ok d ∧
    (runAll bookRules).run d.tree = .ok n t' ∧ 0 ∈ t'.live.map Node.id ∧
    t'.tag? 0 = some "part" ∧ ∃ c ∈ t'.childrenOf 0, t'.tag? c = some "para" :=
  exists_run_of_rewritten? _ (by decide +kernel)

end BookMarkup.Rule
