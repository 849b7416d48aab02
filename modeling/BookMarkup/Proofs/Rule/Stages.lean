import BookMarkup.Proofs.Rule.BookRules
import BookMarkup.Proofs.Rule.CodeBlock

/-!
The stages of a run that succeeds: the trees between the rules, each with what has been brought about
on the way to it. What a rule brings about is still there in the end because the rules after it
only move nodes: they leave labels alone and take only few nodes from their parents.
-/

namespace BookMarkup.Rule

open BookMarkup.Tree

theorem exists_runAll_of_append {rules later : List Rule} {t t₁ t' : Tree} {m n : Nat}
    (hr : (runAll rules).run t = .ok m t₁) (h : (runAll (rules ++ later)).run t = .ok n t') :
    ∃ k, (runAll later).run t₁ = .ok k t' := by
  rw [runAll_append, hr] at h
  cases hrest : (runAll later).run t₁ with
  | error f t₂ => simp [hrest] at h
  | ok k t₂ =>
      simp only [hrest, EStateM.Result.ok.injEq] at h
      exact ⟨k, by rw [h.2]⟩

theorem exists_runAll_of_cons {r : Rule} {rules : List Rule} {t t₁ t' : Tree} {m n : Nat}
    (hr : r.apply.run t = .ok m t₁) (h : (runAll (r :: rules)).run t = .ok n t') :
    ∃ k, (runAll rules).run t₁ = .ok k t' := by
  have hone : (runAll [r]).run t = .ok (m + 0) t₁ := by
    rw [runAll_cons_of_ok hr]
    rfl
  exact exists_runAll_of_append hone h

/-! ### Callouts and appendices -/

structure Hoisted (t t' : Tree) : Prop where
  rearranged : Rearranged t t'
  size : t'.nodes.size = t.nodes.size
  movesOnly : MovesOnly (fun i => t.tag? i = some "appendix" ∨ t.tag? i = some "calloutlist") t t'

theorem Hoisted.of_rules {t u t' : Tree} (hr : Rearranged t u) (hs : u.nodes.size = t.nodes.size)
    (hc : MovesOnly (fun i => t.tag? i = some "appendix") t u) (hr' : Rearranged u t')
    (hs' : t'.nodes.size = u.nodes.size)
    (hc' : MovesOnly (fun i => u.tag? i = some "calloutlist") u t') : Hoisted t t' where
  rearranged := hr.trans hr'
  size := hs'.trans hs
  movesOnly := (hc.mono fun _ _ => .inl).trans hc' fun _ hi _ hm =>
    .inr ((hc.tag?_eq hi).symm.trans hm)

/-! ### Cells, attributions and quotations -/

section Children

variable {t t' : Tree}

theorem HeaderCells.tag?_of_tag? (h : HeaderCells t t') {i : NodeId} {tag : String}
    (ht : t'.tag? i = some tag) (hn : tag ≠ "para") : t.tag? i = some tag := by
  have hi : i < t.nodes.size := by
    by_contra hle
    rw [(h.new i (Nat.le_of_not_lt hle) (lt_size_of_tag? ht)).1, Option.some.injEq] at ht
    exact hn ht.symm
  exact (h.movesOnly.tag?_eq hi).symm.trans ht

theorem HeaderCells.parentOf_of_tag? (h : HeaderCells t t') {i p : NodeId} {tag : String}
    (hi : i < t.nodes.size) (hp : t'.parentOf i = some p) (ht : t'.tag? p = some tag)
    (hn : tag ≠ "para") : t.parentOf i = some p := by
  rcases h.moved i hi with hsame | ⟨w, hw, hwt⟩
  · exact hsame.symm.trans hp
  · obtain rfl : p = w := Option.some.inj (hp.symm.trans hw)
    exact absurd (Option.some.inj (ht.symm.trans hwt)) hn

theorem HeaderCells.isHeaderCell (h : HeaderCells t t') {e : NodeId} (he : IsHeaderCell t' e) :
    IsHeaderCell t e := by
  obtain ⟨het, r, hr, hrt, head, hhead, hht⟩ := he
  have het' := h.tag?_of_tag? het (by decide)
  have hrt' := h.tag?_of_tag? hrt (by decide)
  have hr' := h.parentOf_of_tag? (lt_size_of_tag? het') hr hrt (by decide)
  have hhead' := h.parentOf_of_tag? (lt_size_of_tag? hrt') hhead hht (by decide)
  exact ⟨het', r, hr', hrt', head, hhead', h.tag?_of_tag? hht (by decide)⟩

/-- The rule for attributions takes nothing from other live elements and puts nothing into them. -/
theorem Attributions.parentOf_iff (h : Attributions t t') {p : NodeId}
    (hp : p < t.nodes.size) (hl : t'.Live p) (hn : t.tag? p ≠ some "attribution") (c : NodeId) :
    t'.parentOf c = some p ↔ t.parentOf c = some p := by
  obtain ⟨hlp, hnot⟩ := (h.live p hp).1 hl
  constructor
  · intro hc
    by_cases hct : c < t.nodes.size
    · exact h.movesOnly.parentOf_of_live hct hl hc not_false
    · obtain ⟨_, a, ha, hat⟩ :=
        h.new c (Nat.le_of_not_lt hct) (hl.child hc)
      obtain rfl : p = a := Option.some.inj (hc.symm.trans ha)
      exact absurd ((h.movesOnly.tag?_eq hp).symm.trans hat) hn
  · intro hc
    have hct := lt_size_of_parentOf hc
    refine (h.movesOnly.parentOf c hct ((h.live c hct).2
      ⟨hlp.child hc, ?_⟩) not_false).trans hc
    rintro ⟨a, hat, hb⟩
    obtain ⟨q, hq, hw⟩ := below_iff.1 hb
    obtain rfl : p = q := Option.some.inj (hc.symm.trans hq)
    rcases within_iff.1 hw with rfl | hb
    · exact hn hat
    · exact hnot ⟨a, hat, hb⟩

theorem Attributions.tag?_attribution (h : Attributions t t') {a : NodeId} (hl : t'.Live a)
    (ha : t'.tag? a = some "attribution") :
    a < t.nodes.size ∧ t.tag? a = some "attribution" := by
  have hlt : a < t.nodes.size := by
    by_contra hle
    obtain ⟨value, hv, _⟩ := (h.new a (Nat.le_of_not_lt hle) hl).1
    simp [tag?_eq, hv, Node.tag?, Node.text, Node.isElement] at ha
  exact ⟨hlt, (h.movesOnly.tag?_eq hlt).symm.trans ha⟩

/-- What is in an attribution is a line, since all that was there before has been removed. -/
theorem Attributions.isLine (h : Attributions t t') {a x : NodeId} (hl : t'.Live a)
    (ha : t'.tag? a = some "attribution") (hx : t'.parentOf x = some a) : IsLine t' x := by
  have hlx : t'.Live x := hl.child hx
  refine (h.new x (Nat.le_of_not_lt fun hxs => ?_) hlx).1
  have hxa : t.parentOf x = some a := (h.movesOnly.parentOf x hxs hlx not_false).symm.trans hx
  exact ((h.live x hxs).1 hlx).2
    ⟨a, (h.tag?_attribution hl ha).2, below_iff.2 ⟨a, hxa, .refl a⟩⟩

theorem Quoted.tag?_parentOf (h : Quoted t t') (ht : Proper t) {q p : NodeId} (hl : t'.Live q)
    (hq : t'.tag? q = some "blockquote") (hp : t'.parentOf q = some p) :
    t'.tag? p = some "para" := by
  have hlt : q < t.nodes.size := by
    by_contra hle
    simp [(h.new q (Nat.le_of_not_lt hle) (lt_size_of_tag? hq)).1] at hq
  obtain ⟨r, hr⟩ := h.movesOnly.thinned.exists_parentOf hlt hl hp
  rcases h.quoted q ((h.rearranged.live_iff ht hlt).1 hl) ((h.movesOnly.tag?_eq hlt).symm.trans hq) r hr
    with ⟨hsame, hrt⟩ | ⟨w, hw, hwt, _⟩
  · exact Option.some.inj (hp.symm.trans hsame) ▸ hrt
  · exact Option.some.inj (hp.symm.trans hw) ▸ hwt

/-- The rule for quotations leaves alone what is directly in elements without quotations. -/
theorem Quoted.parentOf_iff (h : Quoted t t') (ht : Proper t) {p : NodeId}
    (hp : p < t.nodes.size) (hl : t.Live p) (hn : t.tag? p ≠ some "para")
    (hq : ∀ c, t.parentOf c = some p → t.tag? c ≠ some "blockquote") (c : NodeId) :
    t'.parentOf c = some p ↔ t.parentOf c = some p := by
  have hl' : t'.Live p := (h.rearranged.live_iff ht hp).2 hl
  constructor
  · intro hc
    by_cases hct : c < t.nodes.size
    · by_cases hcq : t.tag? c = some "blockquote"
      · have hcl : t.Live c :=
          (h.rearranged.live_iff ht hct).1 (hl'.child hc)
        obtain ⟨r, hr⟩ := h.movesOnly.thinned.exists_parentOf hct (hl'.child hc) hc
        rcases h.quoted c hcl hcq r hr with ⟨hsame, _⟩ | ⟨w, hw, hwt, _⟩
        · exact hr.trans (hsame.symm.trans hc)
        · obtain rfl : p = w := Option.some.inj (hc.symm.trans hw)
          exact absurd ((h.movesOnly.tag?_eq hp).symm.trans hwt) hn
      · exact h.movesOnly.parentOf_of_live hct hl' hc hcq
    · obtain ⟨_, q, r, hqt, hqr, _, hcr⟩ := h.new c (Nat.le_of_not_lt hct) (lt_size_of_parentOf hc)
      obtain rfl : p = r := Option.some.inj (hc.symm.trans hcr)
      exact absurd hqt (hq q hqr)
  · intro hc
    have hct := lt_size_of_parentOf hc
    have hcl := (h.rearranged.live_iff ht hct).2 (hl.child hc)
    exact (h.movesOnly.parentOf c hct hcl (hq c hc)).trans hc

/-! ### Labels and column specifications -/

structure Finished (t t' : Tree) : Prop where
  movesOnly : MovesOnly (fun _ => False) t t'
  live : ∀ i < t.nodes.size, t'.Live i ↔
    t.Live i ∧ ¬ Inside t (fun c => t.tag? c = some "colspec") i
  new : ∀ i, t.nodes.size ≤ i → t'.Live i → IsText t' i ∧
    ∃ x p, t.tag? x = some "xref" ∧ t.parentOf x = some p ∧ t'.parentOf i = some p

theorem Finished.of_rules {u : Tree} (ht : Proper t) (hl : Labelled t u) (hp : Pruned u t')
    (hlive : ∀ i, t'.Live i ↔ u.Live i ∧ ¬ Inside u (fun c => u.tag? c = some "colspec") i) :
    Finished t t' := by
  obtain ⟨hthin, hsame⟩ := hl.thinned ht
  refine ⟨(hl.movesOnly ht).trans (hp.movesOnly hl.proper) fun _ _ _ hm => hm, fun i hi => ?_,
    fun i hi hli => ?_⟩
  · rw [hlive, hsame i hi]
    refine and_congr_right fun h => not_congr ?_
    simpa using hthin.inside_tag_iff (show isLandmark "colspec" by decide) (by decide)
      (fun _ => True) hi ((hsame i hi).2 h)
  · obtain ⟨htext, x, p, hx, hn⟩ :=
      hl.new i hi (hl.proper.lt_of_live (hp.live i hli))
    have hxt : t.tag? x = some "xref" :=
      (hl.made.tag?_iff hl.kept (by decide) (by decide)).1 hx
    have hxp : u.parentOf x = some p := hl.proper.forest.mem_childrenOf.1 (hn.subset (by simp))
    have hip : u.parentOf i = some p := hl.proper.forest.mem_childrenOf.1 (hn.subset (by simp))
    exact ⟨htext.kept (hp.thinned hl.proper).kept, x, p, hxt,
      (hl.parentOf x (lt_size_of_tag? hxt)).symm.trans hxp, (hp.parentOf i hli).trans hip⟩

theorem Finished.parentOf_child (h : Finished t t') {c p : NodeId} (hp : p < t.nodes.size)
    (hl : t'.Live p) (hc : t.parentOf c = some p) (hn : t.tag? c ≠ some "colspec") :
    t'.parentOf c = some p := by
  obtain ⟨hlp, hnot⟩ := (h.live p hp).1 hl
  have hct := lt_size_of_parentOf hc
  have hcl : t'.Live c := (h.live c hct).2 ⟨hlp.child hc, mt (inside_child_iff hc hnot).1 hn⟩
  exact (h.movesOnly.parentOf c hct hcl not_false).trans hc

theorem Finished.parentOf_iff (h : Finished t t') {p : NodeId} (hp : p < t.nodes.size)
    (hl : t'.Live p) (hn : ∀ c, t.parentOf c = some p →
      t.tag? c ≠ some "xref" ∧ t.tag? c ≠ some "colspec") (c : NodeId) :
    t'.parentOf c = some p ↔ t.parentOf c = some p := by
  refine ⟨fun hc => ?_, fun hc => h.parentOf_child hp hl hc (hn c hc).2⟩
  by_cases hct : c < t.nodes.size
  · exact h.movesOnly.parentOf_of_live hct hl hc not_false
  · obtain ⟨_, x, q, hx, hxq, hcq⟩ :=
      h.new c (Nat.le_of_not_lt hct) (hl.child hc)
    obtain rfl : p = q := Option.some.inj (hc.symm.trans hcq)
    exact absurd hx (hn x hxq).1

end Children

/-! ### All stages -/

/-- The trees between the rules of a run on `t` that leaves `t'`. -/
structure Stages (t t' : Tree) where
  renamed : Tree
  opened : Tree
  formatted : Tree
  listed : Tree
  hoisted : Tree
  filled : Tree
  flattened : Tree
  quoted : Tree
  opening : Opening t renamed opened
  open' : Opened renamed opened
  format : CodeLanguages opened formatted
  list : Listed formatted listed
  hoist : Hoisted listed hoisted
  fill : HeaderCells hoisted filled
  flatten : Attributions filled flattened
  quote : Quoted flattened quoted
  finish : Finished quoted t'

theorem exists_stages {t t' : Tree} {n : Nat} (h : Proper t)
    (hrun : (runAll bookRules).run t = .ok n t') :
    ∃ (n₁ : Nat) (s : Stages t t'), (runAll (bookRules.take 1)).run t = .ok n₁ s.renamed := by
  obtain ⟨n₁, t₁, n₃, t₃, hrun₁, hrun₃, ho, ho'⟩ := run_opening h
  rw [← List.take_append_drop 3 bookRules] at hrun
  obtain ⟨k₃, hrun⟩ := exists_runAll_of_append hrun₃ hrun
  simp only [bookRules, List.drop_succ_cons, List.drop_zero] at hrun
  rcases run_codeLanguage ho.thinned.proper with
    ⟨n₄, t₄, hrun₄, hc₄⟩ | ⟨_, _, _, _, t₄, hrun₄⟩
  case inr =>
    rw [runAll_cons_of_error hrun₄] at hrun
    simp at hrun
  obtain ⟨k₄, hrun⟩ := exists_runAll_of_cons hrun₄ hrun
  obtain ⟨n₅, t₅, hrun₅, hthin₅, hl₅, hf₅⟩ := run_formalListings hc₄.relabelled.proper
  obtain ⟨k₅, hrun⟩ := exists_runAll_of_cons hrun₅ hrun
  obtain ⟨n₆, t₆, hrun₆, hr₆, hi₆⟩ := run_informalListings hthin₅.proper
  obtain ⟨k₆, hrun⟩ := exists_runAll_of_cons hrun₆ hrun
  obtain ⟨n₇, t₇, hrun₇, hr₇, hs₇, hc₇⟩ := run_hoistAppendices hr₆.proper
  obtain ⟨k₇, hrun⟩ := exists_runAll_of_cons hrun₇ hrun
  obtain ⟨n₈, t₈, hrun₈, hr₈, hs₈, hc₈⟩ := run_attachCalloutLists hr₇.proper
  obtain ⟨k₈, hrun⟩ := exists_runAll_of_cons hrun₈ hrun
  obtain ⟨n₉, t₉, hrun₉, hf₉⟩ := run_wrapHeaderCells hr₈.proper
  obtain ⟨k₉, hrun⟩ := exists_runAll_of_cons hrun₉ hrun
  obtain ⟨n₁₀, t₁₀, hrun₁₀, ha₁₀⟩ := run_flattenAttributions hf₉.rearranged.proper
  obtain ⟨k₁₀, hrun⟩ := exists_runAll_of_cons hrun₁₀ hrun
  obtain ⟨n₁₁, t₁₁, hrun₁₁, hq₁₁⟩ := run_wrapBlockquotes ha₁₀.movesOnly.thinned.proper
  obtain ⟨k₁₁, hrun⟩ := exists_runAll_of_cons hrun₁₁ hrun
  have h₁₁ := hq₁₁.rearranged.proper
  rcases run_labelCrossReferences h₁₁ with ⟨n₁₂, t₁₂, hrun₁₂, _, hl₁₂⟩ | ⟨_, _, t₁₂, hrun₁₂⟩
  case inr =>
    rw [runAll_cons_of_error hrun₁₂] at hrun
    simp at hrun
  obtain ⟨k₁₂, hrun⟩ := exists_runAll_of_cons hrun₁₂ hrun
  obtain ⟨n₁₃, t₁₃, hrun₁₃, hp₁₃, hl₁₃⟩ := run_columnSpecs hl₁₂.proper
  obtain ⟨k₁₃, hrun⟩ := exists_runAll_of_cons hrun₁₃ hrun
  obtain rfl : t₁₃ = t' := by
    have hnil : (runAll []).run t₁₃ = .ok 0 t₁₃ := rfl
    rw [hnil, EStateM.Result.ok.injEq] at hrun
    exact hrun.2
  exact ⟨n₁, ⟨t₁, t₃, t₄, t₆, t₈, t₉, t₁₀, t₁₁, ho, ho', hc₄,
    .of_rules hc₄.relabelled.proper hthin₅ hl₅ hf₅ hr₆ hi₆, .of_rules hr₇ hs₇ hc₇ hr₈ hs₈ hc₈, hf₉, ha₁₀,
    hq₁₁, .of_rules h₁₁ hl₁₂ hp₁₃ hl₁₃⟩, hrun₁⟩

namespace Stages

variable {t t' : Tree} (s : Stages t t')

/-- After the rule for header cells, only quotations get other parents. -/
theorem movesOnly_flattened :
    MovesOnly (fun i => s.flattened.tag? i = some "blockquote") s.flattened t' :=
  s.quote.movesOnly.trans s.finish.movesOnly fun _ _ _ => False.elim

theorem movesOnly_filled : MovesOnly (fun i => s.filled.tag? i = some "blockquote") s.filled t' :=
  (s.flatten.movesOnly.mono fun _ _ => False.elim).trans s.movesOnly_flattened fun _ hi _ hm =>
    (s.flatten.movesOnly.tag?_eq hi).symm.trans hm

/-- After the rules for listings, no node gets another label. -/
theorem movesOnly_listed : MovesOnly (fun _ => True) s.listed t' :=
  ((s.hoist.movesOnly.mono fun _ _ _ => trivial).trans s.fill.movesOnly fun _ _ _ _ => trivial).trans
    s.movesOnly_filled fun _ _ _ _ => trivial

theorem thinned_formatted : Thinned s.formatted t' :=
  s.list.thinned.trans s.movesOnly_listed.thinned

theorem thinned_opened : Thinned s.opened t' :=
  ((s.format.relabelled.rearranged s.opening.thinned.proper s.format.kept.mono).thinned
    s.opening.thinned.proper).trans s.thinned_formatted

theorem thinned_renamed : Thinned s.renamed t' :=
  s.opening.thinned.trans s.thinned_opened

/-- After the rules for listings, most nodes keep their parents, except that the content of a cell
may get into a paragraph there. -/
theorem parentOf_listed {i : NodeId} (hi : i < s.listed.nodes.size) (hl : t'.Live i)
    (hn : ∀ tag ∈ ["appendix", "calloutlist", "blockquote"], s.listed.tag? i ≠ some tag) :
    t'.parentOf i = s.listed.parentOf i ∨
      (∃ e, s.listed.parentOf i = some e ∧ s.listed.tag? e = some "entry") ∧
        ∃ w, t'.parentOf i = some w ∧ t'.tag? w = some "para" := by
  have hi₈ := s.hoist.movesOnly.thinned.kept.lt hi
  have hi₉ := s.fill.movesOnly.thinned.kept.lt hi₈
  have hl₉ := s.movesOnly_filled.thinned.live i hi₉ hl
  have hl₈ := s.fill.movesOnly.thinned.live i hi₈ hl₉
  have htag₉ : s.filled.tag? i = s.listed.tag? i :=
    (s.fill.movesOnly.tag?_eq hi₈).trans (s.hoist.movesOnly.tag?_eq hi)
  have hlast : t'.parentOf i = s.filled.parentOf i :=
    s.movesOnly_filled.parentOf i hi₉ hl (htag₉ ▸ hn "blockquote" (by simp))
  have hfirst : s.hoisted.parentOf i = s.listed.parentOf i :=
    s.hoist.movesOnly.parentOf i hi hl₈ (not_or.2 ⟨hn "appendix" (by simp), hn "calloutlist" (by simp)⟩)
  rw [hlast, ← hfirst]
  by_cases hm : ∃ e, s.hoisted.parentOf i = some e ∧ s.hoisted.tag? e = some "entry"
  · refine (s.fill.moved i hi₈).imp_right ?_
    rintro ⟨w, hw, hwt⟩
    obtain ⟨e, he, het⟩ := hm
    have hes := s.hoist.size ▸ lt_size_of_tag? het
    exact ⟨⟨e, he, (s.hoist.movesOnly.tag?_eq hes).symm.trans het⟩, w, hw,
      (s.movesOnly_filled.tag?_eq (lt_size_of_tag? hwt)).trans hwt⟩
  · exact .inl (s.fill.movesOnly.parentOf i hi₈ hl₉ hm)

end Stages

end BookMarkup.Rule
