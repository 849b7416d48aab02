import BookMarkup.Proofs.Document.Reading
import BookMarkup.Proofs.Rule.BookRules

/-!
What a run of all rules for books keeps. The places of the nodes that are dropped are told on the
tree with the renamed elements: each stretch of the run drops some of them, and the others are still
in the same landmarks and paragraphs when the next stretch comes. What is made stays where it was
made.
-/

namespace BookMarkup.Rule

open BookMarkup.Tree

/-- The node is inside an element that is unwanted or a column specification, strictly inside an
attribution, or the paragraph of a formal one with nothing but code blocks in it. -/
def Dropped (t : Tree) (i : NodeId) : Prop :=
  Inside t (Unwanted t) i ∨ Inside t (fun c => t.tag? c = some "colspec") i ∨
    InAttribution t i ∨ Emptied t (IsCode t) i

/-- The node is an introduction, a listing or a paragraph, the text of an attribution, or the text
right before a reference. -/
def Created (t : Tree) (i : NodeId) : Prop :=
  (∃ tag ∈ madeTags, t.tag? i = some tag) ∨
    IsText t i ∧ ((∃ a, t.parentOf i = some a ∧ t.tag? a = some "attribution") ∨
      ∃ x p, t.tag? x = some "xref" ∧ [i, x] <:+: t.childrenOf p)

/-! ### What is dropped -/

theorem childrenOf_ne_nil_iff {t : Tree} (hf : Forest t) {p : NodeId} :
    t.childrenOf p ≠ [] ↔ ∃ c, t.parentOf c = some p := by
  constructor
  · intro h
    obtain ⟨c, hc⟩ := List.exists_mem_of_ne_nil _ h
    exact ⟨c, hf.mem_childrenOf.1 hc⟩
  · rintro ⟨c, hc⟩
    exact List.ne_nil_of_mem (hf.mem_childrenOf.2 hc)

/-- The same paragraphs are emptied in two trees in which they and what is around them agree. -/
theorem emptied_iff {t t' : Tree} (hf : Forest t) (hf' : Forest t') {p : NodeId}
    (hp : InFormal t' p ↔ InFormal t p)
    (hc : InFormal t p → ∀ c, t'.parentOf c = some p ↔ t.parentOf c = some p)
    (hcode : InFormal t p → ∀ c, t.parentOf c = some p → (IsCode t' c ↔ IsCode t c)) :
    Emptied t' (IsCode t') p ↔ Emptied t (IsCode t) p := by
  rw [Emptied, Emptied, hp]
  refine and_congr_right fun h => and_congr ?_ (forall_congr' fun c => ?_)
  · rw [childrenOf_ne_nil_iff hf, childrenOf_ne_nil_iff hf']
    exact exists_congr (hc h)
  · rw [hf.mem_childrenOf, hf'.mem_childrenOf, hc h c]
    exact forall_congr' fun hm => hcode h c hm

section Stretches

variable {t t₁ t₃ t₄ : Tree}

theorem Opening.live_parent (h : Opening t t₁ t₃) {p f : NodeId} (hp : t₃.Live p)
    (hlt : p < t₁.nodes.size) (hf : t₁.parentOf p = some f) : t₃.Live f := by
  have h₁ := h.relabelled.proper
  obtain ⟨hl, hn⟩ := (h.live p hlt).1 hp
  refine (h.live f (h₁.forest.parent_lt hf)).2 ⟨hl.parent h₁ hf, ?_⟩
  rintro ⟨a, ha, hw⟩
  exact hn ⟨a, ha, .step hf hw⟩

/-- What is directly in a live element is pruned or moved only if its tag is one of these. -/
theorem Opening.parentOf_iff (h : Opening t t₁ t₃) {p : NodeId} {tag : String}
    (hp : t₁.tag? p = some tag) (hl : t₃.Live p)
    (htag : tag ∉ ["bookinfo", "mediaobject", "part", "partintro"]) (c : NodeId) :
    t₃.parentOf c = some p ↔ t₁.parentOf c = some p := by
  refine h.below p (lt_size_of_tag? hp) hl (fun other hm he => htag ?_) c
  rw [hp, Option.some.injEq] at he
  exact he ▸ hm

theorem Opening.emptied_iff (h : Opening t t₁ t₃) {p : NodeId} (hp : t₃.Live p)
    (hlt : p < t₁.nodes.size) : Emptied t₃ (IsCode t₃) p ↔ Emptied t₁ (IsCode t₁) p := by
  have h₁ := h.relabelled.proper
  have hinner : InFormal t₃ p ↔ InFormal t₁ p := by
    rw [InFormal, InFormal, h.kept.tag?_eq hlt]
    refine and_congr_right fun _ => ?_
    constructor
    · rintro ⟨f, hf, ht⟩
      have ht' : t₁.tag? f = some "formalpara" := by
        have hlf : f < t₁.nodes.size := Nat.lt_of_not_le fun hle => by
          have hm := h.built.made f _ hle ht
          simp [madeTags] at hm
        rw [← h.kept.tag?_eq hlf, ht]
      exact ⟨f, (h.parentOf_iff ht' (hp.parent h.thinned.proper hf) (by decide) p).1 hf, ht'⟩
    · rintro ⟨f, hf, ht⟩
      refine ⟨f, (h.parentOf_iff ht (h.live_parent hp hlt hf) (by decide) p).2 hf, ?_⟩
      rw [h.kept.tag?_eq (h₁.forest.parent_lt hf), ht]
  refine Rule.emptied_iff h₁.forest h.thinned.proper.forest hinner
    (fun hi => h.parentOf_iff hi.1 hp (by decide)) fun _ c hc => ?_
  simp only [IsCode, h.kept.tag?_eq (lt_size_of_parentOf hc)]

theorem Relabelled.emptied_iff (h : Relabelled t₃ t₄) (hf : Forest t₃)
    (hk : Kept [] touchedNames t₃ t₄) (p : NodeId) :
    Emptied t₄ (IsCode t₄) p ↔ Emptied t₃ (IsCode t₃) p := by
  have htag := h.tag?_eq hk
  refine Rule.emptied_iff hf h.proper.forest ?_ (fun _ c => by rw [h.parentOf]) fun _ c _ => ?_
  · simp only [InFormal, htag, h.parentOf]
  · simp only [IsCode, htag]

end Stretches

/-! ### What is created -/

section Created

variable {t t' : Tree}

/-- What the labels are put before is still there when the column specifications are gone. -/
theorem Pruned.created_label (h : Pruned t t') (ht : Proper t)
    (hlive : ∀ i, t'.Live i ↔ t.Live i ∧ ¬ Inside t (fun c => t.tag? c = some "colspec") i)
    {i x p : NodeId} (hi : t'.Live i) (hx : t.tag? x = some "xref")
    (hn : [i, x] <:+: t.childrenOf p) : [i, x] <:+: t'.childrenOf p := by
  have hip : t.parentOf i = some p :=
    ht.forest.mem_childrenOf.1 (hn.subset (by simp))
  have hxp : t.parentOf x = some p :=
    ht.forest.mem_childrenOf.1 (hn.subset (by simp))
  have hip' : t'.parentOf i = some p := (h.parentOf i hi).trans hip
  -- A column specification around the reference would be around the label as well.
  have hxp' : t'.parentOf x = some p :=
    (h.parentOf_child_iff hlive (hi.parent h.proper hip') hxp).2 (by simp [hx])
  exact h.neighbours hn hip' hxp'

end Created

/-! ### The whole run -/

theorem dropped_iff_of_outcome {t t₁ t₃ t₄ t₁₁ t₁₂ t' : Tree} (ho : Opening t t₁ t₃)
    (hr : Relabelled t₃ t₄) (hk : Kept [] touchedNames t₃ t₄) (hm : Restructured t₄ t₁₁)
    (hl : Labelled t₁₁ t₁₂)
    (hlive : ∀ i, t'.Live i ↔
      t₁₂.Live i ∧ ¬ Inside t₁₂ (fun c => t₁₂.tag? c = some "colspec") i)
    {i : NodeId} (hi : i < t.nodes.size) : t'.Live i ↔ t.Live i ∧ ¬ Dropped t₁ i := by
  have h₁ := ho.relabelled.proper
  have h₃ := ho.thinned.proper
  have hi₁ : i < t₁.nodes.size := ho.relabelled.size ▸ hi
  have hthin₄ : Thinned t₁ t₄ := ho.thinned.trans ((hr.rearranged h₃ hk.mono).thinned h₃)
  have hi₄ := hthin₄.kept.lt hi₁
  obtain ⟨hthin₁₂, hlive₁₂⟩ := hl.thinned hm.thinned.proper
  have hthin : Thinned t₁ t₁₂ := (hthin₄.trans hm.thinned).trans hthin₁₂
  -- What the later stretches drop is told on `t₁`, as long as the node is still there.
  have hemptied (h : t₃.Live i) : Emptied t₄ (IsCode t₄) i ↔ Emptied t₁ (IsCode t₁) i :=
    (hr.emptied_iff h₃.forest hk i).trans (ho.emptied_iff h hi₁)
  have hattribution (h : t₃.Live i) : InAttribution t₄ i ↔ InAttribution t₁ i :=
    hthin₄.inAttribution_iff h₁ hi₁ (hr.live_iff.2 h)
  have hcolspec (h : t₁₂.Live i) : Inside t₁₂ (fun c => t₁₂.tag? c = some "colspec") i ↔
      Inside t₁ (fun c => t₁.tag? c = some "colspec") i := by
    simpa using
      hthin.inside_tag_iff (show isLandmark "colspec" by decide) (by decide) (fun _ => True) hi₁ h
  have hlive₃ : t₁₂.Live i ↔
      t₃.Live i ∧ ¬ Emptied t₁ (IsCode t₁) i ∧ ¬ InAttribution t₁ i := by
    rw [hlive₁₂ i (hm.thinned.kept.lt hi₄), hm.live i hi₄, hr.live_iff]
    exact and_congr_right fun h => by rw [hemptied h, hattribution h]
  rw [hlive, and_congr_right fun h => not_congr (hcolspec h), hlive₃, ho.live i hi₁,
    ho.relabelled.live_iff, Dropped]
  simp only [not_or]
  constructor
  · rintro ⟨⟨⟨hl, hun⟩, hem, hat⟩, hcol⟩
    exact ⟨hl, hun, hcol, hat, hem⟩
  · rintro ⟨hl, hun, hcol, hat, hem⟩
    exact ⟨⟨⟨hl, hun⟩, hem, hat⟩, hcol⟩

theorem created_of_outcome {t₁ t₃ t₄ t₁₁ t₁₂ t' : Tree} (hb : Built t₁ t₃)
    (hr : Relabelled t₃ t₄) (hk : Kept [] touchedNames t₃ t₄) (hm : Restructured t₄ t₁₁)
    (hl : Labelled t₁₁ t₁₂) (hp : Pruned t₁₂ t')
    (hlive : ∀ i, t'.Live i ↔
      t₁₂.Live i ∧ ¬ Inside t₁₂ (fun c => t₁₂.tag? c = some "colspec") i)
    {i : NodeId} (hi : t₁.nodes.size ≤ i) (hli : t'.Live i) : Created t' i := by
  have hl₁₂ : t₁₂.Live i := ((hlive i).1 hli).1
  have hkept : Kept exchangedTags touchedNames t₁₂ t' := (hp.thinned hl.proper).kept
  have hkept₁₁ : Kept exchangedTags touchedNames t₁₁ t' := hl.kept.trans hkept
  by_cases hi₁₁ : i < t₁₁.nodes.size
  · by_cases hi₃ : i < t₃.nodes.size
    · obtain ⟨tag, hmade, ht⟩ := hb i hi hi₃
      have hkept₃ := (hk.mono.trans hm.thinned.kept).trans hkept₁₁
      exact .inl ⟨tag, hmade, (hkept₃.tag?_iff hi₃ (not_mem_exchangedTags_of_made hmade)).2 ht⟩
    · have hl₁₁ : t₁₁.Live i := ((hl.thinned hm.thinned.proper).2 i hi₁₁).1 hl₁₂
      have hi₄ : t₄.nodes.size ≤ i := hr.size ▸ Nat.le_of_not_lt hi₃
      rcases hm.new i hi₄ hl₁₁ with ⟨tag, hmade, ht⟩ | ⟨htext, a, ha, ht⟩
      · exact .inl ⟨tag, hmade,
          (hkept₁₁.tag?_iff hi₁₁ (not_mem_exchangedTags_of_made hmade)).2 ht⟩
      · have ha' : t'.parentOf i = some a := by rw [hp.parentOf i hli, hl.parentOf i hi₁₁, ha]
        exact .inr ⟨htext.kept hkept₁₁, .inl ⟨a, ha',
          (hkept₁₁.tag?_iff (lt_size_of_tag? ht) (by decide)).2 ht⟩⟩
  · obtain ⟨htext, x, p, hx, hn⟩ :=
      hl.new i (Nat.le_of_not_lt hi₁₁) (hl.proper.lt_of_live hl₁₂)
    exact .inr ⟨htext.kept hkept, .inr ⟨x, p,
      (hkept.tag?_iff (lt_size_of_tag? hx) (by decide)).2 hx,
      hp.created_label hl.proper hlive hli hx hn⟩⟩

/-- After a run that succeeds on a document that has been read, each live node is reached once, and
the nodes that were live before are live but for the dropped ones. The dropped ones are told on the
tree `t₁` that the first rule leaves, which has the same links and new tags. Every other live node
is one that the rules are to create. -/
theorem live_of_run_bookRules {o : Reader.Options} {text : String} {d : Document} {n : Nat}
    {t' : Tree} (h : Document.parse o text = .ok d)
    (hrun : (runAll bookRules).run d.tree = .ok n t') :
    ∃ n₁ t₁, (runAll (bookRules.take 1)).run d.tree = .ok n₁ t₁ ∧
      (∀ i, t₁.parentOf i = d.tree.parentOf i ∧ t₁.childrenOf i = d.tree.childrenOf i) ∧
      (∀ i, d.tree.Live i → t₁.tag? i = (d.tree.tag? i).map bookTag) ∧
      (t'.live.map Node.id).Nodup ∧
      (∀ i < d.tree.nodes.size, i ∈ t'.live.map Node.id ↔
        i ∈ d.tree.live.map Node.id ∧ ¬ Dropped t₁ i) ∧
      ∀ i ∈ t'.live.map Node.id, d.tree.nodes.size ≤ i → Created t' i := by
  have ht := Document.proper_of_parse h
  obtain ⟨n₁, t₁, n₃, t₃, hrun₁, _, ho, houtcome⟩ := run_bookRules ht
  refine ⟨n₁, t₁, hrun₁, fun i => ⟨ho.relabelled.parentOf i, ho.relabelled.childrenOf i⟩,
    fun i hl => ho.tag?_eq hl, ?_⟩
  rw [hrun] at houtcome
  cases houtcome with
  | done _ _ hr hk hm hl hp hlive =>
      have hf := hp.proper.forest
      refine ⟨hf.nodup_live, fun i hi => ?_, fun i hm' hi => ?_⟩
      · rw [hf.mem_map_live, ht.forest.mem_map_live]
        exact dropped_iff_of_outcome ho hr hk hm hl hlive hi
      · rw [← ho.relabelled.size] at hi
        exact created_of_outcome ho.built hr hk hm hl hp hlive hi (hf.mem_map_live.1 hm')

/-- A column specification goes. -/
theorem not_live_of_lone_colspec :
    ∃ d n t', Document.parse {} "<a><colspec/></a>" = .ok d ∧
      (runAll bookRules).run d.tree = .ok n t' ∧ 1 ∉ t'.live.map Node.id := by
  have hs : Token.scan (Token.withoutMark "<a><colspec/></a>".toList) =
      ⟨[.startTag ⟨"a", []⟩, .emptyTag ⟨"colspec", []⟩, .endTag "a"], none⟩ := by cbv
  have hparse := Document.parse_of_tokens (o := {}) hs rfl rfl
  have hproper := Document.proper_of_parse hparse
  obtain ⟨n, t', hrun⟩ := exists_ok_of_no_code hproper
    (fun i hinv => by
      obtain ⟨tag, ht, hm⟩ := hinv
      have hi : i < 2 := lt_size_of_tag? ht
      obtain rfl | rfl := Nat.le_one_iff_eq_zero_or_eq_one.1 (Nat.le_of_lt_succ hi)
      · obtain rfl : "a" = tag := Option.some.inj ht
        simp at hm
      · obtain rfl : "colspec" = tag := Option.some.inj ht
        simp at hm)
    (fun r hinv => by
      obtain ⟨hr, ht, _⟩ := hinv
      obtain rfl : 0 = r := Option.some.inj hr
      have hne : "a" = "xref" := Option.some.inj ht
      simp at hne)
  obtain ⟨_, t₁, _, _, htag, _, hlive, _⟩ := live_of_run_bookRules hparse hrun
  refine ⟨_, n, t', hparse, hrun, fun hm => ((hlive 1 (by decide)).1 hm).2 ?_⟩
  exact .inr (.inl ⟨1, htag 1 ⟨0, rfl, .step rfl (.refl 0)⟩, .refl 1⟩)

end BookMarkup.Rule
