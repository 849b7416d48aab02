import BookMarkup.Proofs.Document.Reading
import BookMarkup.Proofs.Rule.Purged
import BookMarkup.Proofs.Rule.Rested
import BookMarkup.Proofs.Rule.Retagged

/-!
Rules carried out twice. What a rule leaves has nothing in it that the rule looks for, whatever it has
moved, wrapped or renamed on the way; so the second time most rules do nothing and count nothing. The
rule for attributions writes each line anew, which leaves a copy of the tree. Appendices, callouts and
labels are different: there a rule may find more to do in what it has left.
-/

namespace BookMarkup.Rule

open BookMarkup.Tree

theorem eq_of_run {e : Edit Nat} {t t' u : Tree} {m n : Nat} (h : e.run t = .ok m t')
    (h' : e.run t = .ok n u) : t' = u :=
  (EStateM.Result.ok.inj (h.symm.trans h')).2

section Again

variable {t t' : Tree} {n : Nat} (h : Proper t)

include h

theorem idle_renameElements_again (hrun : (renameElements bookTags).apply.run t = .ok n t') :
    Proper t' ∧ Idle (renameElements bookTags).apply t' := by
  have hpairs (p) (hp : p ∈ bookTags) : ∃ names, Selector.parse p.1 = .ok ⟨[names]⟩ :=
    ⟨_, parse_bookTags p hp⟩
  obtain ⟨u, hrun', hu⟩ := exists_retagged h hpairs
  obtain rfl := eq_of_run hrun hrun'
  exact ⟨hu.relabelled.proper, hu.idle settling_bookTags hpairs⟩

theorem idle_pruneMetadata_again
    (hrun : (pruneMetadata prunedElements prunedAttributes).apply.run t = .ok n t') :
    Proper t' ∧ Idle (pruneMetadata prunedElements prunedAttributes).apply t' := by
  have hrows (row) (hm : row ∈ prunedAttributes) : ∃ s, Selector.parse row.1 = .ok s :=
    (parse_prunedAttributes row hm).elim fun _ hs => ⟨_, hs.1⟩
  obtain ⟨_, u, hrun', hu⟩ := exists_purged h parse_prunedElements hrows
  obtain rfl := eq_of_run hrun hrun'
  exact ⟨hu.proper, hu.idle parse_prunedElements hrows⟩

theorem idle_partIntro_again (hrun : partIntro.apply.run t = .ok n t') :
    Proper t' ∧ Idle partIntro.apply t' := by
  obtain ⟨_, u, hrun', hr, _, _, htidy, hintro, _⟩ := run_partIntro h
  obtain rfl := eq_of_run hrun hrun'
  exact ⟨hr.proper, idle_partIntro hr.proper htidy hintro⟩

theorem idle_codeLanguage_again (hrun : codeLanguage.apply.run t = .ok n t') :
    Proper t' ∧ Idle codeLanguage.apply t' := by
  rcases run_codeLanguage h with ⟨_, u, hrun', hc⟩ | ⟨_, _, _, _, u, hrun'⟩
  · obtain rfl := eq_of_run hrun hrun'
    have hr := hc.relabelled
    exact ⟨hr.proper, idle_codeLanguage hr.proper fun b hl hb =>
      hc.language (hr.live_iff.1 hl) (hb.of_eq (hr.tag?_eq hc.kept b).symm)⟩
  · simp [hrun] at hrun'

theorem idle_formalListings_again (hrun : formalListings.apply.run t = .ok n t') :
    Proper t' ∧ Idle formalListings.apply t' := by
  obtain ⟨_, u, hrun', hthin, _, hf⟩ := run_formalListings h
  obtain rfl := eq_of_run hrun hrun'
  refine ⟨hthin.proper, idle_select_tally parse_titled fun b hb => ?_⟩
  obtain ⟨hl, ha⟩ := hthin.proper.forest.mem_select.1 hb
  obtain ⟨f, hbf⟩ := accepts_titled_iff.1 ha
  exact absurd hbf (hf.not_titled hthin hl)

theorem idle_informalListings_again (hrun : informalListings.apply.run t = .ok n t') :
    Proper t' ∧ Idle informalListings.apply t' := by
  obtain ⟨_, u, hrun', hr, hi⟩ := run_informalListings h
  obtain rfl := eq_of_run hrun hrun'
  exact ⟨hr.proper, idle_informalListings hr.proper fun b p => hi.isListingWrapper h hr⟩

theorem idle_wrapHeaderCells_again (hrun : wrapHeaderCells.apply.run t = .ok n t') :
    Proper t' ∧ Idle wrapHeaderCells.apply t' := by
  obtain ⟨_, u, hrun', hc⟩ := run_wrapHeaderCells h
  obtain rfl := eq_of_run hrun hrun'
  have hp := hc.rearranged.proper
  have hf := hp.forest
  have hn : Selector.names "thead/row/entry" = [["thead"], ["row"], ["entry"]] := by cbv
  refine ⟨hp, idle_select_tally (Selector.parse_of_names hn rfl) fun e he => ?_⟩
  obtain ⟨hl, ha⟩ := hf.mem_select.1 he
  have hcell := hc.isHeaderCell (accepts_headerCell_iff.1 ha)
  obtain ⟨c, hct, hch⟩ := hc.filled e (hc.movesOnly.thinned.live e (lt_size_of_tag? hcell.1) hl) hcell
  exact idle_wrapCell (hl.lt hf) (childrenOf_eq_singleton hf hch) hct

theorem exists_flattenAttributions_again (hrun : flattenAttributions.apply.run t = .ok n t') :
    Proper t' ∧
      ∃ m u f, flattenAttributions.apply.run t' = .ok m u ∧ Proper u ∧ Copied f t' u := by
  obtain ⟨_, u, hrun', ha⟩ := run_flattenAttributions h
  obtain rfl := eq_of_run hrun hrun'
  have hp := ha.movesOnly.thinned.proper
  refine ⟨hp, run_flattenAttributions_of_flat hp fun a hl hat => ?_⟩
  rw [or_iff_not_imp_left, ← ne_eq, childrenOf_ne_nil_iff hp.forest]
  rintro ⟨x, hx⟩
  obtain ⟨hlt, hat'⟩ := ha.tag?_attribution hl hat
  obtain ⟨_, honly⟩ := ha.flat a (ha.movesOnly.thinned.live a hlt hl) hat' x hx
  exact ⟨x, childrenOf_eq_singleton hp.forest fun i => ⟨honly i, fun hi => hi ▸ hx⟩,
    ha.isLine hl hat hx⟩

theorem idle_wrapBlockquotes_again (hrun : wrapBlockquotes.apply.run t = .ok n t') :
    Proper t' ∧ Idle wrapBlockquotes.apply t' := by
  obtain ⟨_, u, hrun', hq⟩ := run_wrapBlockquotes h
  obtain rfl := eq_of_run hrun hrun'
  have hp := hq.rearranged.proper
  exact ⟨hp, idle_wrapBlockquotes hp fun q p => hq.tag?_parentOf h⟩

theorem idle_columnSpecs_again (hrun : columnSpecs.apply.run t = .ok n t') :
    Proper t' ∧ Idle columnSpecs.apply t' := by
  obtain ⟨_, u, hrun', hp, hlive⟩ := run_columnSpecs h
  obtain rfl := eq_of_run hrun hrun'
  have hn : Selector.names "colspec" = [["colspec"]] := by cbv
  refine ⟨hp.proper, idle_removeEach fun path hm => ?_⟩
  rw [List.mem_singleton.1 hm]
  refine ⟨_, Selector.parse_of_names hn rfl,
    hp.proper.forest.select_eq_nil_iff.2 fun i hl ha => ?_⟩
  obtain ⟨tag, ht, hm⟩ := Selector.accepts_one_iff.1 ha
  rw [List.mem_singleton.1 hm, hp.tag?_eq] at ht
  exact ((hlive i).1 hl).2 ⟨i, ht, .refl i⟩

end Again

/-- A rule that has nothing to do leaves a copy, namely the tree itself. -/
theorem exists_copy_of_idle {r : Rule} {t : Tree} (h : Proper t ∧ Idle r.apply t) :
    Proper t ∧ ∃ m u f, r.apply.run t = .ok m u ∧ Proper u ∧ Copied f t u ∧
      (r.name ≠ "flatten-attributions" → m = 0 ∧ u = t) :=
  ⟨h.1, 0, t, id, h.2, h.1, .refl t, fun _ => ⟨rfl, rfl⟩⟩

/-- Ten of the rules for books are done after one time. Whenever such a rule succeeds on a document that
has been read, it succeeds once more on what it has left. The live nodes are then the same up to their
numbers, which `f` tells; and but for attributions, the rule counts nothing and leaves the very tree. -/
theorem run_again_of_parse {o : Reader.Options} {text : String} {d : Document}
    (h : Document.parse o text = .ok d) {r : Rule} (hr : r ∈ bookRules)
    (hname : r.name ∈ ["rename-elements", "prune-metadata", "part-intro", "code-language",
      "formal-listings", "informal-listings", "wrap-header-cells", "flatten-attributions",
      "wrap-blockquotes", "remove-column-specs"])
    {n : Nat} {t' : Tree} (hrun : r.apply.run d.tree = .ok n t') :
    ∃ m u f, r.apply.run t' = .ok m u ∧ Copied f t' u ∧
      (∀ i j, t'.Live i → t'.Live j → f i = f j → i = j) ∧
      (∀ j, u.Live j ↔ ∃ i, t'.Live i ∧ f i = j) ∧
      (r.name ≠ "flatten-attributions" → m = 0 ∧ u = t') := by
  have ht := Document.proper_of_parse h
  suffices hagain : Proper t' ∧ ∃ m u f, r.apply.run t' = .ok m u ∧ Proper u ∧ Copied f t' u ∧
      (r.name ≠ "flatten-attributions" → m = 0 ∧ u = t') by
    obtain ⟨ht', m, u, f, hrun', hu, hc, hsame⟩ := hagain
    refine ⟨m, u, f, hrun', hc, fun i j hi hj => hc.injective ht' hu.forest hi hj, fun j => ?_,
      hsame⟩
    refine ⟨hc.exists_live ht'.forest hu.forest, ?_⟩
    rintro ⟨i, hi, rfl⟩
    exact hc.live ht'.forest hi
  simp only [bookRules, List.mem_cons, List.not_mem_nil, or_false] at hr
  rcases hr with rfl | rfl | rfl | rfl | rfl | rfl | rfl | rfl | rfl | rfl | rfl | rfl | rfl
  · exact exists_copy_of_idle (idle_renameElements_again ht hrun)
  · exact exists_copy_of_idle (idle_pruneMetadata_again ht hrun)
  · exact exists_copy_of_idle (idle_partIntro_again ht hrun)
  · exact exists_copy_of_idle (idle_codeLanguage_again ht hrun)
  · exact exists_copy_of_idle (idle_formalListings_again ht hrun)
  · exact exists_copy_of_idle (idle_informalListings_again ht hrun)
  · exact absurd hname (by decide)
  · exact absurd hname (by decide)
  · exact exists_copy_of_idle (idle_wrapHeaderCells_again ht hrun)
  · obtain ⟨ht', m, u, f, hrun', hu, hc⟩ := exists_flattenAttributions_again ht hrun
    exact ⟨ht', m, u, f, hrun', hu, hc, fun hne => absurd rfl hne⟩
  · exact exists_copy_of_idle (idle_wrapBlockquotes_again ht hrun)
  · exact absurd hname (by decide)
  · exact exists_copy_of_idle (idle_columnSpecs_again ht hrun)

/-- The line of an attribution is written twice. -/
theorem run_again_of_attribution : ∃ d n t',
    Document.parse {} "<attribution>a<b>c</b></attribution>" = .ok d ∧
    flattenAttributions ∈ bookRules ∧ flattenAttributions.apply.run d.tree = .ok n t' ∧
    ∃ m u f, flattenAttributions.apply.run t' = .ok m u ∧ Copied f t' u := by
  obtain ⟨d, hparse, -⟩ : ∃ d, Document.parse {} "<attribution>a<b>c</b></attribution>" = .ok d ∧
      True := exists_ok_of_any (by decide +kernel)
  obtain ⟨n, t', hrun, -⟩ := run_flattenAttributions (Document.proper_of_parse hparse)
  have hrule : flattenAttributions ∈ bookRules := by simp [bookRules]
  obtain ⟨m, u, f, hagain, hcopied, -⟩ := run_again_of_parse hparse hrule (by decide) hrun
  exact ⟨d, n, t', hparse, hrule, hrun, m, u, f, hagain, hcopied⟩

end BookMarkup.Rule
