import BookMarkup.Proofs.Rule.Move
import BookMarkup.Proofs.Rule.Note

/-!
The rule for formal listings on proper trees. It always succeeds. Blocks leave the paragraphs of
formal paragraphs, and the only nodes that are lost are the paragraphs among them that held nothing
but blocks.
-/

namespace BookMarkup.Rule

open BookMarkup.Tree

def IsFormal (t : Tree) (f : NodeId) : Prop :=
  t.tag? f = some "formalpara" ∨ t.tag? f = some "example"

/-- The labels of `t'` are those of `t`, but that the block `b` is a listing, its paragraph `p` has no
role and the formal paragraph `f` is an example, perhaps with a note. -/
def FormalLabels (b p f : NodeId) (t t' : Tree) : Prop :=
  ∃ note, (note = id ∨ note = annotated) ∧ ∀ i, t'.contentOf i = (t.contentOf i).map
    (if i = f then note ∘ named "example" else if i = b then named "programlisting"
      else if i = p then roleless else id)

theorem FormalLabels.of_contentOf {b p f : NodeId} {t u t' : Tree} (h : FormalLabels b p f t u)
    (hc : ∀ i, t'.contentOf i = u.contentOf i) : FormalLabels b p f t t' := by
  obtain ⟨note, hnote, hu⟩ := h
  exact ⟨note, hnote, fun i => (hc i).trans (hu i)⟩

structure FormalBlock (t : Tree) (b p f : NodeId) : Prop where
  code : IsCode t b
  block : t.parentOf b = some p
  para : t.tag? p = some "para"
  inner : t.parentOf p = some f
  formal : IsFormal t f

theorem IsFormal.exists_tag? {t : Tree} {f : NodeId} (hf : IsFormal t f) :
    ∃ tag, t.tag? f = some tag ∧ tag ∈ ["formalpara", "example"] := by
  rcases hf with hf | hf
  · exact ⟨_, hf, by simp⟩
  · exact ⟨_, hf, by simp⟩

section FormalBlock

variable {t : Tree} {b p f : NodeId} (hb : FormalBlock t b p f)

include hb

theorem FormalBlock.para_ne : p ≠ b :=
  hb.code.ne_of_tag? hb.para (by decide)

theorem FormalBlock.formal_ne : f ≠ b := by
  rcases hb.formal with hf | hf
  · exact hb.code.ne_of_tag? hf (by decide)
  · exact hb.code.ne_of_tag? hf (by decide)

theorem FormalBlock.formal_ne_para : f ≠ p := by
  rintro rfl
  rcases hb.formal with hf | hf
  · simp [hb.para] at hf
  · simp [hb.para] at hf

theorem FormalBlock.tag?_of_labels {t' : Tree} (h : FormalLabels b p f t t') (i : NodeId) :
    t'.tag? i =
      if i = f then some "example" else if i = b then some "programlisting" else t.tag? i := by
  obtain ⟨note, hnote, hc⟩ := h
  have hnoted (n : Node) : (note n).tag? = n.tag? := by rcases hnote with rfl | rfl <;> rfl
  have hnamed {tag old : String} (ht : t.tag? i = some old) :
      ((t.contentOf i).map (named tag)).bind Node.tag? = some tag := by
    rw [tag?_eq] at ht
    obtain ⟨n, hn, ht⟩ := Option.bind_eq_some_iff.1 ht
    rw [hn]
    exact Node.tag?_eq_some_iff.2 ⟨(Node.tag?_eq_some_iff.1 ht).1, rfl⟩
  rw [tag?_eq, hc]
  split
  · next hif =>
    obtain ⟨outer, ho, _⟩ := hb.formal.exists_tag?
    rw [← Option.map_map, Option.bind_map, Function.comp_def, funext hnoted, hnamed (hif ▸ ho)]
  split
  · next hib =>
    obtain ⟨old, hold, _⟩ := hb.code
    exact hnamed (hib ▸ hold)
  split
  · rw [Option.bind_map, tag?_eq]
    rfl
  · rw [Option.map_id, tag?_eq]
    rfl

/-- The block moves to the formal paragraph, and a paragraph without children is removed. -/
theorem exists_run_formalize (h : Proper t) :
    ∃ v, (formalize b).run t = .ok 1 (if v.childrenOf p = [] then v.detached p else v) ∧
      Rearranged t v ∧ v.nodes.size = t.nodes.size ∧
      (∀ i, v.contentOf i = (t.contentOf i).map
        (if i = f then noteIf (asksNote t p) ∘ named "example" else if i = b then named "programlisting"
          else if i = p then roleless else id)) ∧
      (∀ i, v.parentOf i = if i = b then some f else t.parentOf i) ∧
      ∀ i, v.childrenOf i =
        if i = f then beside 0 p b ((t.childrenOf i).filter (· ≠ b))
        else (t.childrenOf i).filter (· ≠ b) := by
  have hall : ∀ tag ∈ ["formalpara", "example"], tag ∈ exchangedTags := by decide
  obtain ⟨old, hold, holdx⟩ := hb.code.exists_exchanged
  obtain ⟨outer, ho, hom⟩ := hb.formal.exists_tag?
  -- The block gets its new tag and moves before the paragraph.
  have hr₁ := Rearranged.update_name h "programlisting" hold holdx (by decide)
  have htag₁ := tag?_update_name hold "programlisting"
  have hpar₁ := parentOf_update (Node.relabels_name "programlisting") t b
  have hchild₁ := childrenOf_update (Node.relabels_name "programlisting") t b
  obtain ⟨t₂, hrun₂, hr₂, hsize₂, hcont₂, hpar₂, hchild₂⟩ := run_insertBeside_parent hr₁.proper 0
    ((hpar₁ p).trans hb.inner) hb.para_ne ((hpar₁ b).trans hb.block) ((hpar₁ p).trans hb.inner)
    (by rw [htag₁, if_neg hb.para_ne, hb.para]) (by decide)
  have htag₂ (i : NodeId) : t₂.tag? i = if i = b then some "programlisting" else t.tag? i := by
    rw [tag?_eq_of_contentOf (hcont₂ i), htag₁]
  -- The formal paragraph becomes an example.
  have ho₂ : t₂.tag? f = some outer := by rw [htag₂, if_neg hb.formal_ne, ho]
  have hr₃ := Rearranged.update_name hr₂.proper "example" ho₂ (hall outer hom) (by decide)
  have hcont₃ := contentOf_update (Node.relabels_name "example") t₂ f
  have hpar₃ := parentOf_update (Node.relabels_name "example") t₂ f
  have hchild₃ := childrenOf_update (Node.relabels_name "example") t₂ f
  have hsize₃ : (t₂.update f fun n => { n with name := "example" }).nodes.size = t.nodes.size := by
    rw [size_update, hsize₂, size_update]
  obtain ⟨v, hrun₄, hr₄, hcont₄⟩ := run_propagateAnnotations hr₃.proper
    (hsize₃.symm ▸ lt_size_of_tag? hb.para) (hsize₃.symm ▸ lt_size_of_tag? ho) hb.formal_ne_para
  have hv₄ : Propagated p f _ v := ⟨hr₄, _, noteIf_eq _, hcont₄⟩
  have hv : Rearranged t v :=
    ((hr₁.trans hr₂).trans hr₃).trans (hr₄.rearranged hr₃.proper hv₄.kept.mono)
  have hsize : v.nodes.size = t.nodes.size := hr₄.size.trans hsize₃
  -- The paragraph asks for a note when it is its turn if it did so before.
  have hnote : asksNote (t₂.update f fun n => { n with name := "example" }) p = asksNote t p := by
    refine asksNote_congr ?_
    rw [hcont₃, if_neg hb.formal_ne_para, hcont₂,
      contentOf_update (Node.relabels_name "programlisting"), if_neg hb.para_ne.symm]
  have hps : p < v.nodes.size := hsize ▸ lt_size_of_tag? hb.para
  refine ⟨v, ?_, hv, hsize, fun i => ?_, fun i => by
    rw [hr₄.parentOf, hpar₃, hpar₂, hpar₁], fun i => by
    rw [hr₄.childrenOf, hchild₃, hchild₂, hchild₁]⟩
  · simp only [formalize, EStateM.run_bind, run_parent? (lt_size_of_tag? hold), hb.block,
      run_parent? (lt_size_of_tag? hb.para), hb.inner, run_rename_of_tag? hold, Edit.insertBefore,
      hrun₂, run_rename_of_tag? ho₂, hrun₄, run_childIds hps]
    by_cases he : v.childrenOf p = []
    · simp only [he, List.isEmpty_nil, if_true, EStateM.run_bind, Edit.remove,
        run_detach hv.proper.forest, hps, EStateM.run_pure]
    · have he' : (v.childrenOf p).isEmpty = false := by simpa using he
      simp only [he, he', if_false, Bool.false_eq_true, EStateM.run_pure]
  · rw [hcont₄, hnote, hcont₃, hcont₂, contentOf_update (Node.relabels_name "programlisting")]
    by_cases hif : i = f
    · subst hif
      rw [if_pos rfl, if_pos rfl, if_neg hb.formal_ne.symm, if_pos rfl, Option.map_map]
      rfl
    rw [if_neg hif, if_neg (Ne.symm hif), if_neg hif]
    by_cases hib : i = b
    · subst hib
      rw [if_neg hb.para_ne.symm, if_pos rfl, if_pos rfl, Option.map_id]
      rfl
    rw [if_neg hib, if_neg (Ne.symm hib)]

/-- The paragraph is lost if it held nothing but the block, and everything else stays live. -/
theorem run_formalize (h : Proper t) :
    ∃ n t', (formalize b).run t = .ok n t' ∧ Thinned t t' ∧ t'.nodes.size = t.nodes.size ∧
      FormalLabels b p f t t' ∧
      (∀ i, t'.parentOf i = if i = b then some f
        else if i = p ∧ ∀ c ∈ t.childrenOf p, c = b then none else t.parentOf i) ∧
      ∀ i, t'.Live i ↔ t.Live i ∧ ¬ (i = p ∧ ∀ c ∈ t.childrenOf p, c = b) := by
  obtain ⟨v, hrun, hv, hsize, hcont, hpar, -⟩ := exists_run_formalize hb h
  have hlabel : FormalLabels b p f t v := ⟨noteIf (asksNote t p), noteIf_eq _, hcont⟩
  have hbare : v.childrenOf p = [] ↔ ∀ c ∈ t.childrenOf p, c = b := by
    rw [List.eq_nil_iff_forall_not_mem]
    refine forall_congr' fun c => ?_
    rw [hv.proper.forest.mem_childrenOf, hpar, h.forest.mem_childrenOf]
    by_cases hc : c = b
    · simp [hc, hb.formal_ne_para]
    · simp [hc]
  have hlive (i : NodeId) : v.Live i ↔ t.Live i := hv.live_iff_of_size h hsize
  refine ⟨1, _, hrun, ?_⟩
  by_cases he : v.childrenOf p = []
  · have hp := hbare.1 he
    rw [if_pos he]
    refine ⟨(hv.thinned h).trans (.detached hv.proper p), by rw [size_detached, hsize],
      hlabel.of_contentOf (contentOf_detached hv.proper.forest p), fun i => ?_, fun i => ?_⟩
    · rw [parentOf_detached hv.proper.forest, hpar]
      by_cases hib : i = b
      · rw [if_neg (hib ▸ hb.para_ne.symm), if_pos hib, if_pos hib]
      · by_cases hip : i = p
        · rw [if_pos hip, if_neg hib, if_pos ⟨hip, hp⟩]
        · rw [if_neg hip, if_neg hib, if_neg hib, if_neg fun hc => hip hc.1]
    · rw [live_detached hv.proper, hlive]
      refine and_congr_right fun _ => not_congr ?_
      exact ⟨fun hw => ⟨hv.proper.forest.eq_of_within he hw, hp⟩, fun hi => hi.1 ▸ .refl i⟩
  · have hp := mt hbare.2 he
    rw [if_neg he]
    refine ⟨hv.thinned h, hsize, hlabel, fun i => ?_, fun i => ?_⟩
    · rw [hpar]
      by_cases hib : i = b
      · rw [if_pos hib, if_pos hib]
      · rw [if_neg hib, if_neg hib, if_neg fun hc => hp hc.2]
    · rw [hlive]
      exact (and_iff_left fun hc => hp hc.2).symm

end FormalBlock

def InFormal (t : Tree) (p : NodeId) : Prop :=
  t.tag? p = some "para" ∧ ∃ f, t.parentOf p = some f ∧ t.tag? f = some "formalpara"

/-- The paragraph of a formal one from which all children have been taken: there were some, and all
are among the `taken`. -/
def Emptied (t : Tree) (taken : NodeId → Prop) (p : NodeId) : Prop :=
  InFormal t p ∧ t.childrenOf p ≠ [] ∧ ∀ c ∈ t.childrenOf p, taken c

structure Partway (t : Tree) (ids rest : List NodeId) (u : Tree) : Prop where
  thinned : Thinned t u
  size : u.nodes.size = t.nodes.size
  nodup : rest.Nodup
  subset : ∀ b ∈ rest, b ∈ ids
  next : ∀ b ∈ rest, ∃ p f, FormalBlock u b p f
  held : ∀ p, t.tag? p = some "para" → ∀ c,
    u.parentOf c = some p ↔ t.parentOf c = some p ∧ (c ∈ ids → c ∈ rest)
  live : ∀ i, u.Live i ↔ t.Live i ∧ ¬ Emptied t (fun c => c ∈ ids ∧ c ∉ rest) i

section Partway

variable {t u u' : Tree} {ids rest : List NodeId} {b p f : NodeId}

theorem FormalBlock.later {b₂ p₂ f₂ : NodeId} (hu : Proper u) (hb : FormalBlock u b p f)
    (hb₂ : FormalBlock u b₂ p₂ f₂) (hne : b₂ ≠ b)
    (htag : ∀ i, u'.tag? i =
      if i = f then some "example" else if i = b then some "programlisting" else u.tag? i)
    (hpar : ∀ i, u'.parentOf i = if i = b then some f
      else if i = p ∧ ∀ c ∈ u.childrenOf p, c = b then none else u.parentOf i) :
    FormalBlock u' b₂ p₂ f₂ := by
  obtain ⟨tag, ho, hm⟩ := hb.formal.exists_tag?
  have hbf : b₂ ≠ f := by
    refine (hb₂.code.ne_of_tag? ho ?_).symm
    simp only [List.mem_cons, List.not_mem_nil, or_false] at hm
    rcases hm with rfl | rfl <;> decide
  have hpf : p₂ ≠ f := by
    rintro rfl
    rcases hb.formal with hf | hf
    · simp [hb₂.para] at hf
    · simp [hb₂.para] at hf
  have hpb : p₂ ≠ b := hb.code.ne_of_tag? hb₂.para (by decide)
  have hfb : f₂ ≠ b := by
    rcases hb₂.formal with hf | hf
    · exact hb.code.ne_of_tag? hf (by decide)
    · exact hb.code.ne_of_tag? hf (by decide)
  refine ⟨?_, ?_, ?_, ?_, ?_⟩
  · obtain ⟨tag, ht, hm⟩ := hb₂.code
    exact ⟨tag, by rw [htag, if_neg hbf, if_neg hne, ht], hm⟩
  · have hbp : b₂ ≠ p := (hb₂.code.ne_of_tag? hb.para (by decide)).symm
    rw [hpar, if_neg hne, if_neg fun hc => hbp hc.1, hb₂.block]
  · rw [htag, if_neg hpf, if_neg hpb, hb₂.para]
  · rw [hpar, if_neg hpb, if_neg, hb₂.inner]
    rintro ⟨rfl, hbare⟩
    exact hne (hbare b₂ (hu.forest.mem_childrenOf.2 hb₂.block))
  · by_cases hff : f₂ = f
    · exact .inr (by rw [htag, if_pos hff])
    · rw [IsFormal, htag, if_neg hff, if_neg hfb]
      exact hb₂.formal

/-- What the paragraph of a block has lost is counted by the children that it has now. -/
theorem Partway.bare_iff (ht : Proper t) (h : Partway t ids (b :: rest) u) {p : NodeId}
    (htp : t.tag? p = some "para") (hbp : t.parentOf b = some p) (hpf : InFormal t p) :
    (∀ c ∈ u.childrenOf p, c = b) ↔ Emptied t (fun c => c ∈ ids ∧ c ∉ rest) p := by
  have hbr : b ∉ rest := (List.nodup_cons.1 h.nodup).1
  have hbi : b ∈ ids := h.subset b List.mem_cons_self
  have hmem (c : NodeId) :
      c ∈ u.childrenOf p ↔ c ∈ t.childrenOf p ∧ (c ∈ ids → c ∈ b :: rest) := by
    rw [h.thinned.proper.forest.mem_childrenOf, h.held p htp, ht.forest.mem_childrenOf]
  constructor
  · intro hall
    refine ⟨hpf, List.ne_nil_of_mem (ht.forest.mem_childrenOf.2 hbp), fun c hc => ?_⟩
    by_cases hcb : c = b
    · exact hcb ▸ ⟨hbi, hbr⟩
    · have hout : ¬ (c ∈ ids → c ∈ b :: rest) := fun hin => hcb (hall c ((hmem c).2 ⟨hc, hin⟩))
      obtain ⟨hci, hcr⟩ := Classical.not_imp.1 hout
      exact ⟨hci, fun hr => hcr (List.mem_cons_of_mem b hr)⟩
  · rintro ⟨_, _, hall⟩ c hc
    obtain ⟨hct, hin⟩ := (hmem c).1 hc
    obtain ⟨hci, hcr⟩ := hall c hct
    exact (List.mem_cons.1 (hin hci)).resolve_right hcr

/-- A block counts for its own paragraph only. -/
theorem emptied_cons_iff (ht : Proper t) {p i : NodeId} (hbp : t.parentOf b = some p) (hi : i ≠ p) :
    Emptied t (fun c => c ∈ ids ∧ c ∉ b :: rest) i ↔
      Emptied t (fun c => c ∈ ids ∧ c ∉ rest) i := by
  refine and_congr_right fun _ => and_congr_right fun _ => forall₂_congr fun c hc => ?_
  have hcb : c ≠ b := by
    rintro rfl
    rw [ht.forest.mem_childrenOf, hbp, Option.some.injEq] at hc
    exact hi hc.symm
  simp [hcb]

theorem Partway.step (ht : Proper t) (hids : ∀ b ∈ ids, ∃ p, t.parentOf b = some p ∧ InFormal t p)
    (h : Partway t ids (b :: rest) u) :
    ∃ n u', (formalize b).run u = .ok n u' ∧ Partway t ids rest u' := by
  obtain ⟨hbr, hd⟩ := List.nodup_cons.1 h.nodup
  have hbi : b ∈ ids := h.subset b List.mem_cons_self
  obtain ⟨p, f, hb⟩ := h.next b List.mem_cons_self
  have hu := h.thinned.proper
  obtain ⟨n, u', hrun, hthin, hsize, hlabel, hpar, hlive⟩ := run_formalize hb hu
  have htag := hb.tag?_of_labels hlabel
  have htp : t.tag? p = some "para" :=
    (h.thinned.kept.tag?_iff (h.size ▸ lt_size_of_tag? hb.para) (by decide)).1 hb.para
  have hbp : t.parentOf b = some p := ((h.held p htp b).1 hb.block).1
  have hpf : InFormal t p := by
    obtain ⟨q, hq, hin⟩ := hids b hbi
    rw [hbp, Option.some.injEq] at hq
    exact hq ▸ hin
  have hbare := h.bare_iff ht htp hbp hpf
  refine ⟨n, u', hrun, ⟨h.thinned.trans hthin, hsize.trans h.size, hd,
    fun c hc => h.subset c (List.mem_cons_of_mem b hc), fun c hc => ?_, fun q hq c => ?_,
    fun i => ?_⟩⟩
  · obtain ⟨p₂, f₂, hb₂⟩ := h.next c (List.mem_cons_of_mem b hc)
    have hcb : c ≠ b := fun he => hbr (he ▸ hc)
    exact ⟨p₂, f₂, hb.later hu hb₂ hcb htag hpar⟩
  · have huq := (h.thinned.kept.tag?_iff (lt_size_of_tag? hq) (by decide)).2 hq
    rw [hpar c]
    by_cases hcb : c = b
    · rw [if_pos hcb]
      refine iff_of_false (fun he => ?_) fun hc => hbr (hcb ▸ hc.2 (hcb ▸ hbi))
      rw [Option.some.injEq] at he
      subst he
      rcases hb.formal with hf | hf
      · simp [huq] at hf
      · simp [huq] at hf
    · rw [if_neg hcb]
      split
      · next hcp =>
        obtain ⟨f₀, hf₀, hft⟩ := hpf.2
        refine iff_of_false (by simp) fun hc => ?_
        rw [hcp.1, hf₀, Option.some.injEq] at hc
        simp [← hc.1, hft] at hq
      · rw [h.held q hq c]
        simp [hcb]
  · rw [hlive, h.live, and_assoc]
    refine and_congr_right fun _ => ?_
    by_cases hip : i = p
    · subst hip
      have hfirst : ¬ Emptied t (fun c => c ∈ ids ∧ c ∉ b :: rest) i := fun he =>
        (he.2.2 b (ht.forest.mem_childrenOf.2 hbp)).2 List.mem_cons_self
      simp only [hfirst, not_false_eq_true, true_and, hbare]
    · simp only [hip, false_and, not_false_eq_true, and_true, emptied_cons_iff ht hbp hip]

end Partway

def Titled (t : Tree) (b f : NodeId) : Prop :=
  IsCode t b ∧ ∃ p, t.parentOf b = some p ∧ t.tag? p = some "para" ∧
    t.parentOf p = some f ∧ t.tag? f = some "formalpara"

section Titled

variable {t : Tree} {b p f : NodeId}

theorem Titled.formalpara (h : Titled t b f) : t.tag? f = some "formalpara" := by
  obtain ⟨_, _, _, _, _, hf⟩ := h
  exact hf

theorem Titled.para (h : Titled t b f) (hp : t.parentOf b = some p) :
    t.tag? p = some "para" ∧ t.parentOf p = some f := by
  obtain ⟨_, q, hq, hpara, hqf, _⟩ := h
  obtain rfl : p = q := Option.some.inj (hp.symm.trans hq)
  exact ⟨hpara, hqf⟩

theorem Titled.formal_unique {g : NodeId} (h : Titled t b f) (h' : Titled t b g) : f = g := by
  obtain ⟨_, p, hp, _, hpf, _⟩ := h
  exact Option.some.inj (hpf.symm.trans (h'.para hp).2)

/-- What becomes of the label `n` of the node `i` in `t` when the blocks in `taken` leave the paragraphs
of their formal paragraphs. -/
inductive FormalLabel (t : Tree) (taken : NodeId → Prop) (i : NodeId) (n : Node) : Node → Prop
  | block (h : taken i) : FormalLabel t taken i n (named "programlisting" n)
  | para {b : NodeId} (hb : taken b) (h : t.parentOf b = some i) :
      FormalLabel t taken i n (roleless n)
  | formal {b : NodeId} {note : Node → Node} (hb : taken b) (h : Titled t b i)
      (hnote : note = id ∨ note = annotated) : FormalLabel t taken i n (note (named "example" n))
  | rest (hblock : ¬ taken i) (hpara : ∀ b, taken b → t.parentOf b ≠ some i)
      (hformal : ∀ b, taken b → ¬ Titled t b i) : FormalLabel t taken i n n

theorem note_named_note_named {note note' : Node → Node} (h : note = id ∨ note = annotated)
    (h' : note' = id ∨ note' = annotated) (tag : String) :
    ∃ note'', (note'' = id ∨ note'' = annotated) ∧
      ∀ n, note (named tag (note' (named tag n))) = note'' (named tag n) := by
  rcases h with rfl | rfl
  · exact ⟨note', h', fun n => by rcases h' with rfl | rfl <;> rfl⟩
  · refine ⟨annotated, .inr rfl, fun n => ?_⟩
    rcases h' with rfl | rfl
    · rfl
    · exact annotated_annotated (named tag n)

theorem FormalLabel.step {taken : NodeId → Prop} (htaken : ∀ c, taken c → ∃ g, Titled t c g)
    (hbf : Titled t b f) (hbp : t.parentOf b = some p) (hbt : ¬ taken b) {i : NodeId} {n n' : Node}
    {note : Node → Node} (hnote : note = id ∨ note = annotated) (h : FormalLabel t taken i n n') :
    FormalLabel t (fun c => c = b ∨ taken c) i n
      ((if i = f then note ∘ named "example" else if i = b then named "programlisting"
        else if i = p then roleless else id) n') := by
  obtain ⟨hpara, _⟩ := hbf.para hbp
  -- Blocks, their paragraphs and formal paragraphs have different tags.
  have block {c : NodeId} (hc : taken c) : c ≠ f ∧ c ≠ p := by
    obtain ⟨g, hg⟩ := htaken c hc
    exact ⟨(hg.1.ne_of_tag? hbf.formalpara (by decide)).symm,
      (hg.1.ne_of_tag? hpara (by decide)).symm⟩
  have inner {c q : NodeId} (hc : taken c) (hq : t.parentOf c = some q) : q ≠ f ∧ q ≠ b := by
    obtain ⟨g, hg⟩ := htaken c hc
    obtain ⟨hqt, _⟩ := hg.para hq
    refine ⟨?_, hbf.1.ne_of_tag? hqt (by decide)⟩
    rintro rfl
    simp [hbf.formalpara] at hqt
  have outer {c g : NodeId} (hg : Titled t c g) : g ≠ b ∧ g ≠ p := by
    refine ⟨hbf.1.ne_of_tag? hg.formalpara (by decide), ?_⟩
    rintro rfl
    simp [hg.formalpara] at hpara
  cases h with
  | block h =>
      have hib : i ≠ b := fun he => hbt (he ▸ h)
      rw [if_neg (block h).1, if_neg hib, if_neg (block h).2]
      exact .block (.inr h)
  | para hc h =>
      rw [if_neg (inner hc h).1, if_neg (inner hc h).2]
      split
      · rw [roleless_roleless]
        exact .para (.inr hc) h
      · exact .para (.inr hc) h
  | formal hc h hnote' =>
      obtain ⟨note'', hnote'', he⟩ := note_named_note_named hnote hnote' "example"
      rw [if_neg (outer h).1, if_neg (outer h).2]
      split
      · rw [Function.comp_apply, he]
        exact .formal (.inr hc) h hnote''
      · exact .formal (.inr hc) h hnote'
  | rest hblock hinner hformal =>
      split
      · next hif => exact .formal (.inl rfl) (hif ▸ hbf) hnote
      split
      · next hib => exact .block (.inl hib)
      split
      · next hip => exact .para (.inl rfl) (hip ▸ hbp)
      next hif hib hip =>
      refine .rest (not_or.2 ⟨hib, hblock⟩) ?_ ?_
      · rintro c (rfl | hc) h
        · exact hip (Option.some.inj (h.symm.trans hbp))
        · exact hinner c hc h
      · rintro c (rfl | hc) h
        · exact hif (h.formal_unique hbf)
        · exact hformal c hc h

/-- What the loop over the blocks `ids` has done to labels and links before it comes to `rest`: the
blocks that it has passed are directly in what were formal paragraphs. -/
structure Formalized (t : Tree) (ids rest : List NodeId) (u : Tree) : Prop where
  taken : ∀ b ∈ ids, b ∉ rest → ∃ f, Titled t b f ∧ u.parentOf b = some f
  parentOf : ∀ i, (i ∈ ids → i ∈ rest) → u.parentOf i = t.parentOf i ∨ u.parentOf i = none
  label : ∀ i n, t.contentOf i = some n → ∃ n', u.contentOf i = some n' ∧
    FormalLabel t (fun b => b ∈ ids ∧ b ∉ rest) i n n'

theorem Formalized.refl (t : Tree) (ids : List NodeId) : Formalized t ids ids t where
  taken _ hb hn := absurd hb hn
  parentOf _ _ := .inl rfl
  label _ n hn := ⟨n, hn, .rest (fun h => h.2 h.1) (fun _ h => absurd h.1 h.2)
    fun _ h => absurd h.1 h.2⟩

section Formalized

variable {u u' : Tree} {ids rest : List NodeId}

theorem Formalized.titled (h : Formalized t ids (b :: rest) u)
    (hids : ∀ b ∈ ids, ∃ f, Titled t b f) (hb : FormalBlock u b p f) (hbi : b ∈ ids) :
    Titled t b f ∧ t.parentOf b = some p := by
  obtain ⟨f₀, hbf⟩ := hids b hbi
  have hbp : t.parentOf b = some p := by
    rcases h.parentOf b fun _ => List.mem_cons_self with hp | hp
    · rw [← hp, hb.block]
    · simp [hb.block] at hp
  obtain ⟨hpara, hpf₀⟩ := hbf.para hbp
  have hpi : p ∉ ids := by
    intro hpi
    obtain ⟨_, hcode, _⟩ := hids p hpi
    exact hcode.ne_of_tag? hpara (by decide) rfl
  have hpf : t.parentOf p = some f := by
    rcases h.parentOf p fun hm => absurd hm hpi with hp | hp
    · rw [← hp, hb.inner]
    · simp [hb.inner] at hp
  obtain rfl : f = f₀ := Option.some.inj (hpf.symm.trans hpf₀)
  exact ⟨hbf, hbp⟩

theorem Formalized.step (hids : ∀ b ∈ ids, ∃ f, Titled t b f)
    (h : Formalized t ids (b :: rest) u) (hp : Partway t ids (b :: rest) u) {n : Nat}
    (hrun : (formalize b).run u = .ok n u') : Formalized t ids rest u' := by
  obtain ⟨hbr, -⟩ := List.nodup_cons.1 hp.nodup
  have hbi := hp.subset b List.mem_cons_self
  obtain ⟨p, f, hb⟩ := hp.next b List.mem_cons_self
  obtain ⟨hbf, hbp⟩ := h.titled hids hb hbi
  obtain ⟨m, v, hrun', -, -, ⟨note, hnote, hc⟩, hpar, -⟩ := run_formalize hb hp.thinned.proper
  obtain ⟨rfl, rfl⟩ : n = m ∧ u' = v := by
    rw [hrun, EStateM.Result.ok.injEq] at hrun'
    exact hrun'
  refine ⟨fun c hc hcr => ?_, fun i hi => ?_, fun i k hk => ?_⟩
  · by_cases hcb : c = b
    · subst hcb
      exact ⟨f, hbf, by rw [hpar, if_pos rfl]⟩
    · obtain ⟨g, hg, hcg⟩ := h.taken c hc fun hm => (List.mem_cons.1 hm).elim hcb hcr
      have hcp : p ≠ c := hg.1.ne_of_tag? (hbf.para hbp).1 (by decide)
      exact ⟨g, hg, by rw [hpar, if_neg hcb, if_neg fun hm => hcp hm.1.symm, hcg]⟩
  · have hib : i ≠ b := by
      rintro rfl
      exact hbr (hi hbi)
    rw [hpar, if_neg hib]
    split
    · exact .inr rfl
    · exact h.parentOf i fun hm => List.mem_cons_of_mem b (hi hm)
  · obtain ⟨k', hk', hlabel⟩ := h.label i k hk
    refine ⟨_, by rw [hc, hk', Option.map_some], ?_⟩
    have hpassed : (fun c => c ∈ ids ∧ c ∉ rest) = fun c => c = b ∨ c ∈ ids ∧ c ∉ b :: rest := by
      funext c
      by_cases hcb : c = b
      · simp [hcb, hbi, hbr]
      · simp [hcb]
    rw [hpassed]
    exact hlabel.step (fun c hc => hids c hc.1) hbf hbp (fun hm => hm.2 List.mem_cons_self) hnote

end Formalized

end Titled

/-- After the rule for formal listings every block that had a title is a listing in an example, and
those examples were formal paragraphs with such a block. No other node has a new parent. -/
structure FormalListings (t t' : Tree) : Prop where
  size : t'.nodes.size = t.nodes.size
  moved : ∀ b f, t.Live b → Titled t b f → t'.parentOf b = some f
  parentOf : ∀ i, t'.Live i → (∀ f, ¬ Titled t i f) → t'.parentOf i = t.parentOf i
  label : ∀ i n, t.contentOf i = some n → ∃ n', t'.contentOf i = some n' ∧
    FormalLabel t (fun b => t.Live b ∧ ∃ f, Titled t b f) i n n'

section FormalListings

variable {t t' : Tree}

theorem FormalListings.tag?_block (h : FormalListings t t') {b f : NodeId} (hl : t.Live b)
    (hb : Titled t b f) : t'.tag? b = some "programlisting" := by
  obtain ⟨tag, ht, _⟩ := hb.1
  rw [tag?_eq] at ht
  obtain ⟨n, hn, ht⟩ := Option.bind_eq_some_iff.1 ht
  obtain ⟨n', hn', hlabel⟩ := h.label b n hn
  rw [tag?_eq, hn', Option.bind_some]
  cases hlabel with
  | block => exact Node.tag?_eq_some_iff.2 ⟨(Node.tag?_eq_some_iff.1 ht).1, rfl⟩
  | para hc hcb =>
      obtain ⟨_, g, hg⟩ := hc
      exact absurd rfl (hb.1.ne_of_tag? (hg.para hcb).1 (by decide))
  | formal _ hc => exact absurd rfl (hb.1.ne_of_tag? hc.formalpara (by decide))
  | rest hnot => exact absurd ⟨hl, f, hb⟩ hnot

theorem FormalListings.tag?_formal (h : FormalListings t t') {b f : NodeId} (hl : t.Live b)
    (hb : Titled t b f) : t'.tag? f = some "example" := by
  have ht := hb.formalpara
  rw [tag?_eq] at ht
  obtain ⟨n, hn, ht⟩ := Option.bind_eq_some_iff.1 ht
  obtain ⟨n', hn', hlabel⟩ := h.label f n hn
  rw [tag?_eq, hn', Option.bind_some]
  cases hlabel with
  | block hf =>
      obtain ⟨_, g, hg⟩ := hf
      exact absurd rfl (hg.1.ne_of_tag? hb.formalpara (by decide))
  | para hc hcf =>
      obtain ⟨_, g, hg⟩ := hc
      have hpara := (hg.para hcf).1
      simp [hb.formalpara] at hpara
  | formal hc h hnote =>
      rcases hnote with rfl | rfl
      · exact Node.tag?_eq_some_iff.2 ⟨(Node.tag?_eq_some_iff.1 ht).1, rfl⟩
      · exact Node.tag?_eq_some_iff.2 ⟨(Node.tag?_eq_some_iff.1 ht).1, rfl⟩
  | rest _ _ hnot => exact absurd hb (hnot b ⟨hl, f, hb⟩)

theorem FormalListings.tag? (h : FormalListings t t') {i : NodeId} (hnot : ∀ f, ¬ Titled t i f) :
    t'.tag? i = t.tag? i ∨ t'.tag? i = some "example" ∧ ∃ b, Titled t b i := by
  cases hn : t.contentOf i with
  | none =>
      have hle : ¬ i < t'.nodes.size := by
        rw [h.size, ← contentOf_isSome_iff, hn]
        simp
      have hn' : t'.contentOf i = none := by
        rwa [← contentOf_isSome_iff, Option.not_isSome_iff_eq_none] at hle
      exact .inl (tag?_eq_of_contentOf (hn'.trans hn.symm))
  | some n =>
      obtain ⟨n', hn', hlabel⟩ := h.label i n hn
      cases hlabel with
      | block hf =>
          obtain ⟨_, f, hf⟩ := hf
          exact absurd hf (hnot f)
      | para => exact .inl (by rw [tag?_eq, hn', tag?_eq, hn]; rfl)
      | formal hc hb =>
          obtain ⟨hl, _⟩ := hc
          exact .inr ⟨h.tag?_formal hl hb, _, hb⟩
      | rest => exact .inl (tag?_eq_of_contentOf (hn'.trans hn.symm))

theorem FormalListings.ungained (h : FormalListings t t') : Ungained ["annotations"] t t' := by
  intro i hi name hname hnone
  obtain ⟨n, hn⟩ := Option.isSome_iff_exists.1 (contentOf_isSome_iff.2 hi)
  rw [attribute?_eq, hn] at hnone
  obtain ⟨n', hn', hlabel⟩ := h.label i n hn
  rw [attribute?_eq, hn']
  cases hlabel with
  | block => exact hnone
  | para => exact Attributes.get?_erase_eq_none hnone "role"
  | formal _ _ hnote =>
      rcases hnote with rfl | rfl
      · exact hnone
      · exact (Attributes.get?_insert_of_ne (List.ne_of_not_mem_cons hname) _).trans hnone
  | rest => exact hnone

end FormalListings

/-- A live node that has lost its parent would be the root, which had none before. -/
theorem Thinned.parentOf_eq_of_or {t t' : Tree} (h : Thinned t t') (ht : Proper t) {i : NodeId}
    (hl : t'.Live i) (hp : t'.parentOf i = t.parentOf i ∨ t'.parentOf i = none) :
    t'.parentOf i = t.parentOf i := by
  rcases hp with hp | hp
  · exact hp
  · obtain ⟨r, hr, hw⟩ := hl
    obtain rfl := hw.eq_of_parentOf hp
    rw [hp, ht.top (h.root i hr)]

theorem parse_titled : Selector.parse ("formalpara/para/" ++ codeBlocks) =
    .ok ⟨[["formalpara"], ["para"], ["screen", "programlisting"]]⟩ := by
  have hn : Selector.names ("formalpara/para/" ++ codeBlocks) =
      [["formalpara"], ["para"], ["screen", "programlisting"]] := by cbv
  exact Selector.parse_of_names hn rfl

theorem accepts_titled_iff {t : Tree} {b : NodeId} :
    (Selector.mk [["formalpara"], ["para"], ["screen", "programlisting"]]).accepts t b = true ↔
      ∃ f, Titled t b f := by
  rw [Selector.accepts_three_iff]
  constructor
  · rintro ⟨tag, ht, hm, p, hp, para, hpara, hm', f, hf, formal, hformal, hm''⟩
    rw [List.mem_singleton.1 hm'] at hpara
    rw [List.mem_singleton.1 hm''] at hformal
    exact ⟨f, ⟨tag, ht, hm⟩, p, hp, hpara, hf, hformal⟩
  · rintro ⟨f, ⟨tag, ht, hm⟩, p, hp, hpara, hf, hformal⟩
    exact ⟨tag, ht, hm, p, hp, _, hpara, List.mem_singleton_self _, f, hf, _, hformal,
      List.mem_singleton_self _⟩

theorem run_formalListings {t : Tree} (h : Proper t) :
    ∃ n t', formalListings.apply.run t = .ok n t' ∧ Thinned t t' ∧
      (∀ i, t'.Live i ↔ t.Live i ∧ ¬ Emptied t (IsCode t) i) ∧ FormalListings t t' := by
  let ids := (Selector.mk [["formalpara"], ["para"], ["screen", "programlisting"]]).select t
  have hmem (b : NodeId) : b ∈ ids ↔ t.Live b ∧ ∃ f, Titled t b f := by
    rw [h.forest.mem_select, accepts_titled_iff]
  have htitled : ∀ b ∈ ids, ∃ f, Titled t b f := fun b hb => ((hmem b).1 hb).2
  have hin : ∀ b ∈ ids, ∃ p, t.parentOf b = some p ∧ InFormal t p := fun b hb => by
    obtain ⟨f, _, p, hp, hpara, hf, hformal⟩ := htitled b hb
    exact ⟨p, hp, hpara, f, hf, hformal⟩
  have hstart : Partway t ids ids t := by
    refine ⟨(Rearranged.refl h).thinned h, rfl, h.forest.nodup_select _, fun _ hb => hb,
      fun b hb => ?_, fun p _ c => by simp, fun i => ?_⟩
    · obtain ⟨f, hcode, p, hp, hpara, hf, hformal⟩ := htitled b hb
      exact ⟨p, f, hcode, hp, hpara, hf, .inl hformal⟩
    · refine (and_iff_left ?_).symm
      rintro ⟨_, hne, hall⟩
      obtain ⟨c, hc⟩ := List.exists_mem_of_ne_nil _ hne
      exact (hall c hc).2 (hall c hc).1
  obtain ⟨n, t', hrun, hp, hf⟩ := run_select_tally parse_titled formalize
    (fun rest u => Partway t ids rest u ∧ Formalized t ids rest u)
    (fun b rest u hinv => by
      obtain ⟨m, u', hrun, hp'⟩ := hinv.1.step h hin
      exact ⟨m, u', hrun, hp', hinv.2.step htitled hinv.1 hrun⟩)
    ⟨hstart, .refl t ids⟩
  refine ⟨n, t', hrun, hp.thinned, fun i => ?_, hp.size, fun b f hl hb => ?_,
    fun i hl hi => ?_, fun i k hk => ?_⟩
  · rw [hp.live]
    refine and_congr_right fun hl => not_congr ?_
    refine and_congr_right fun hi => and_congr_right fun _ => forall₂_congr fun c hc => ?_
    have hci := h.forest.mem_childrenOf.1 hc
    -- The children of a live paragraph are live.
    have hlc : t.Live c := Within.live (.step hci (.refl i)) hl
    simp only [List.not_mem_nil, not_false_eq_true, and_true, hmem, hlc, true_and]
    obtain ⟨hpara, f, hf, hformal⟩ := hi
    constructor
    · rintro ⟨_, hcode, _⟩
      exact hcode
    · intro hcode
      exact ⟨f, hcode, i, hci, hpara, hf, hformal⟩
  · obtain ⟨g, hg, hbg⟩ := hf.taken b ((hmem b).2 ⟨hl, f, hb⟩) List.not_mem_nil
    rw [hb.formal_unique hg, hbg]
  · refine hp.thinned.parentOf_eq_of_or h hl (hf.parentOf i fun hm => ?_)
    obtain ⟨f, hf⟩ := htitled i hm
    exact absurd hf (hi f)
  · simpa only [hmem, List.not_mem_nil, not_false_eq_true, and_true] using hf.label i k hk

end BookMarkup.Rule
