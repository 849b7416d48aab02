import BookMarkup.Proofs.Rule.Enclosed
import BookMarkup.Proofs.Rule.Pruned
import BookMarkup.Proofs.Text.Trim
import BookMarkup.Rule.Paragraph

/-!
The rules for paragraphs on proper trees. They always succeed. Wrapping a cell or a quotation loses
nothing; of an attribution exactly what lies below it is lost, and a text may take its place.
-/

namespace BookMarkup.Rule

open BookMarkup.Tree

/-! ### Header cells -/

structure Gathered (t : Tree) (entry : NodeId) (content : Node) (rest : List NodeId) (u : Tree) :
    Prop where
  proper : Proper u
  root : u.root = t.root
  size : u.nodes.size = t.nodes.size + 1
  nodup : rest.Nodup
  subset : ∀ c ∈ rest, c ∈ t.childrenOf entry
  contentOf : ∀ i, u.contentOf i = (t.plant content).contentOf i
  parentOf : ∀ i, u.parentOf i =
    if i ∈ t.childrenOf entry ∧ i ∉ rest then some t.nodes.size else t.parentOf i

section Gathered

variable {t u : Tree} (h : Proper t) {entry : NodeId} {rest : List NodeId}

include h

theorem Gathered.parentOf_new {content : Node} (hu : Gathered t entry content rest u) :
    u.parentOf t.nodes.size = none := by
  rw [hu.parentOf, if_neg, parentOf_eq_none_of_size_le (Nat.le_refl _)]
  rintro ⟨hc, _⟩
  exact Nat.lt_irrefl _ (lt_size_of_parentOf (h.forest.mem_childrenOf.1 hc))

omit h in
theorem Gathered.tag?_new {tag : String} (hu : Gathered t entry (Node.element tag) rest u) :
    u.tag? t.nodes.size = some tag := by
  rw [tag?_eq, hu.contentOf, contentOf_plant, if_pos rfl]
  rfl

theorem Gathered.step {tag : String} {c : NodeId}
    (hu : Gathered t entry (Node.element tag) (c :: rest) u) :
    ∃ u', (Edit.appendChild t.nodes.size c).run u = .ok () u' ∧
      Gathered t entry (Node.element tag) rest u' := by
  obtain ⟨hcr, hd⟩ := List.nodup_cons.1 hu.nodup
  have hmem := hu.subset c List.mem_cons_self
  have hc := h.forest.mem_childrenOf.1 hmem
  have hcs := lt_size_of_parentOf hc
  have hcu : c < u.nodes.size := hu.size ▸ Nat.lt_succ_of_lt hcs
  have hw : t.nodes.size < u.nodes.size := hu.size ▸ Nat.lt_succ_self _
  have hin : ¬ Within u t.nodes.size c := by
    intro hin
    generalize hn : t.nodes.size = new at hin
    cases hin with
    | refl => exact Nat.lt_irrefl _ (hn ▸ hcs)
    | step hp _ =>
        rw [← hn, hu.parentOf_new h] at hp
        simp at hp
  have hroot : u.root ≠ some c := hu.root ▸ h.root_ne_of_parentOf hc
  have hpar := parentOf_moved hu.proper.forest hcu hin (u.childrenOf t.nodes.size).length
  refine ⟨_, run_appendChild_of_not_within hu.proper hw hcu hin, ?_⟩
  refine ⟨hu.proper.moved (hu.tag?_new) hcu hroot hin _, ?_, by rw [size_moved, hu.size], hd,
    fun i hi => hu.subset i (List.mem_cons_of_mem c hi), fun i => ?_, fun i => ?_⟩
  · rw [root_moved, if_neg fun hc => hroot hc.2, hu.root]
  · rw [contentOf_moved hu.proper.forest hin, hu.contentOf]
  · rw [hpar, hu.parentOf]
    by_cases hic : i = c
    · rw [if_pos hic, if_pos ⟨hic ▸ hmem, hic ▸ hcr⟩]
    · simp [hic]

/-- The entry is not inside the new node: none of its children is above it. -/
theorem Gathered.not_within {tag : String}
    (hu : Gathered t entry (Node.element tag) [] u) (he : entry < t.nodes.size) :
    ¬ Within u entry t.nodes.size := by
  have hup {i j : NodeId} (hi : ∀ c ∈ t.childrenOf entry, ¬ Within t i c) (hw : Within u i j) :
      Within t i j := by
    induction hw with
    | refl => exact .refl _
    | @step i j k hp _ ih =>
        have hmem : i ∉ t.childrenOf entry := fun hm => hi i hm (.refl i)
        rw [hu.parentOf, if_neg fun hc => hmem hc.1] at hp
        exact .step hp (ih fun c hc hw => hi c hc (.step hp hw))
  intro hw
  have hw := hup (fun c hc hin => h.forest.not_within_parent (h.forest.mem_childrenOf.1 hc) hin) hw
  have hlt {i j : NodeId} (hi : i < t.nodes.size) (hw : Within t i j) : j < t.nodes.size := by
    induction hw with
    | refl => exact hi
    | step hp _ ih => exact ih (h.forest.parent_lt hp)
  exact Nat.lt_irrefl _ (hlt he hw)

end Gathered

structure Filled (t : Tree) (entry : NodeId) (t' : Tree) : Prop where
  rearranged : Rearranged t t'
  size : t'.nodes.size = t.nodes.size + 1
  contentOf : ∀ i < t.nodes.size, t'.contentOf i = t.contentOf i
  tag?_new : t'.tag? t.nodes.size = some "para"
  parentOf : ∀ i, t'.parentOf i = if i = t.nodes.size then some entry
    else if t.parentOf i = some entry then some t.nodes.size else t.parentOf i

theorem run_wrapContent {t : Tree} (h : Proper t) {entry : NodeId}
    (he : t.tag? entry = some "entry") :
    ∃ t', (do
        let para ← Edit.create (Node.element "para")
        (t.childrenOf entry).forM (Edit.appendChild para)
        Edit.appendChild entry para
        return 1 : Edit Nat).run t = .ok 1 t' ∧ Filled t entry t' := by
  have hes := lt_size_of_tag? he
  have hr₁ := Rearranged.plant h (show "para" ∈ madeTags by decide)
  have hstart : Gathered t entry (Node.element "para") (t.childrenOf entry)
      (t.plant (Node.element "para")) :=
    ⟨hr₁.proper, hr₁.root, size_plant t _, h.forest.nodup_childrenOf entry, fun _ hc => hc,
      fun _ => rfl, fun i => by simp⟩
  obtain ⟨u, hrun, hu⟩ := run_forM (Edit.appendChild t.nodes.size)
    (Gathered t entry (Node.element "para")) (fun c rest u hu => hu.step h) hstart
  have hin := hu.not_within h hes
  have heu : entry < u.nodes.size := hu.size ▸ Nat.lt_succ_of_lt hes
  have hw : t.nodes.size < u.nodes.size := hu.size ▸ Nat.lt_succ_self _
  have htag : u.tag? entry = some "entry" := by
    rw [tag?_eq, hu.contentOf, contentOf_plant, if_neg (Nat.ne_of_lt hes), ← tag?_eq, he]
  have hroot : u.root ≠ some t.nodes.size := by
    rw [hu.root]
    exact fun hr => Nat.lt_irrefl _ (h.forest.root_lt hr)
  have hpar (i : NodeId) : (u.moved entry (u.childrenOf entry).length t.nodes.size).parentOf i =
      if i = t.nodes.size then some entry
      else if t.parentOf i = some entry then some t.nodes.size else t.parentOf i := by
    rw [parentOf_moved hu.proper.forest hw hin, hu.parentOf]
    simp only [h.forest.mem_childrenOf, List.not_mem_nil, not_false_eq_true, and_true]
  have hcont (i : NodeId) : (u.moved entry (u.childrenOf entry).length t.nodes.size).contentOf i =
      (t.plant (Node.element "para")).contentOf i := by
    rw [contentOf_moved hu.proper.forest hin, hu.contentOf]
  have hrun' := run_appendChild_of_not_within hu.proper heu hw hin
  refine ⟨u.moved entry (u.childrenOf entry).length t.nodes.size, ?_,
    .of_detours h (hu.proper.moved htag hw hroot hin _) ?_ ?_ ?_ fun S hS i hi => ?_,
    by rw [size_moved, hu.size], fun i hi => ?_, ?_, hpar⟩
  · simp only [EStateM.run_bind, run_create, hrun, hrun', EStateM.run_pure]
  · rw [root_moved, if_neg fun hc => hroot hc.2, hu.root]
  · exact hr₁.kept.trans (.of_contentOf fun i n hn => (hcont i).trans hn)
  · intro i hi hlt
    rw [tag?_eq_of_contentOf (hcont i)]
    refine hr₁.built i hi ?_
    rwa [size_plant, ← hu.size, ← size_moved]
  · rw [hpar i, if_neg (Nat.ne_of_lt hi)]
    by_cases hc : t.parentOf i = some entry
    · refine .inr ⟨t.nodes.size, by rw [if_pos hc], hS.not_of_size_le (Nat.le_refl _), ?_⟩
      rw [hpar, if_pos rfl, hc]
    · exact .inl (by rw [if_neg hc])
  · rw [hcont, contentOf_plant, if_neg (Nat.ne_of_lt hi)]
  · rw [tag?_eq, hcont, contentOf_plant, if_pos rfl]
    rfl

/-- There is exactly one node directly in the `entry`, and it is a paragraph. -/
def HoldsPara (t : Tree) (entry : NodeId) : Prop :=
  ∃ c, t.tag? c = some "para" ∧ ∀ i, t.parentOf i = some entry ↔ i = c

theorem run_wrapCell {t : Tree} (h : Proper t) {entry : NodeId} (he : t.tag? entry = some "entry") :
    ∃ n t', (wrapCell entry).run t = .ok n t' ∧
      (t' = t ∧ HoldsPara t entry ∨ Filled t entry t') := by
  obtain ⟨t', hrun, hf⟩ := run_wrapContent h he
  simp only [wrapCell, EStateM.run_bind, run_childIds (lt_size_of_tag? he), EStateM.run_get]
    at hrun ⊢
  split
  · next only honly =>
    split
    · next hpara =>
      refine ⟨0, t, rfl, .inl ⟨rfl, only, by simpa using hpara, fun i => ?_⟩⟩
      rw [← h.forest.mem_childrenOf, honly, List.mem_singleton]
    · exact ⟨1, t', hrun, .inr hf⟩
  · exact ⟨1, t', hrun, .inr hf⟩

def IsHeaderCell (t : Tree) (e : NodeId) : Prop :=
  t.tag? e = some "entry" ∧ ∃ r, t.parentOf e = some r ∧ t.tag? r = some "row" ∧
    ∃ head, t.parentOf r = some head ∧ t.tag? head = some "thead"

theorem accepts_headerCell_iff {t : Tree} {e : NodeId} :
    (Selector.mk [["thead"], ["row"], ["entry"]]).accepts t e = true ↔ IsHeaderCell t e := by
  rw [Selector.accepts_three_iff]
  simp only [List.mem_singleton]
  constructor
  · rintro ⟨_, he, rfl, r, hr, _, hrt, rfl, head, hhead, _, ht, rfl⟩
    exact ⟨he, r, hr, hrt, head, hhead, ht⟩
  · rintro ⟨he, r, hr, hrt, head, hhead, ht⟩
    exact ⟨_, he, rfl, r, hr, _, hrt, rfl, head, hhead, _, ht, rfl⟩

structure Filling (t : Tree) (ids rest : List NodeId) (u : Tree) : Prop where
  rearranged : Rearranged t u
  contentOf : ∀ i < t.nodes.size, u.contentOf i = t.contentOf i
  parentOf : ∀ i < t.nodes.size, u.parentOf i = t.parentOf i ∨
    ∃ w, t.nodes.size ≤ w ∧ u.parentOf i = some w ∧ ∃ e ∈ ids, t.parentOf i = some e
  new : ∀ w, t.nodes.size ≤ w → w < u.nodes.size →
    u.tag? w = some "para" ∧ ∃ e ∈ ids, u.parentOf w = some e ∧ e ∉ rest
  filled : ∀ e ∈ ids, e ∉ rest → HoldsPara u e

section Filling

variable {t u u' : Tree} {ids rest : List NodeId} {e : NodeId}

theorem Filling.refl (h : Proper t) (ids : List NodeId) : Filling t ids ids t where
  rearranged := .refl h
  contentOf _ _ := rfl
  parentOf _ _ := .inl rfl
  new _ hw hlt := absurd hlt (Nat.not_lt.2 hw)
  filled _ he hn := absurd he hn

theorem Filling.skip (h : Filling t ids (e :: rest) u) (hc : HoldsPara u e) :
    Filling t ids rest u where
  rearranged := h.rearranged
  contentOf := h.contentOf
  parentOf := h.parentOf
  new w hw hlt := by
    obtain ⟨ht, d, hd, hwd, hdr⟩ := h.new w hw hlt
    exact ⟨ht, d, hd, hwd, fun hm => hdr (List.mem_cons_of_mem e hm)⟩
  filled d hd hdr := by
    by_cases hde : d = e
    · exact hde ▸ hc
    · exact h.filled d hd fun hm => (List.mem_cons.1 hm).elim hde hdr

theorem Filling.step (hids : ∀ i ∈ ids, i < t.nodes.size) (h : Filling t ids (e :: rest) u)
    (he : e ∈ ids) (her : e ∉ rest) (hf : Filled u e u') : Filling t ids rest u' := by
  have hle {i : NodeId} (hi : i < t.nodes.size) : i < u.nodes.size := h.rearranged.kept.lt hi
  have htag {i : NodeId} (hi : i < u.nodes.size) : u'.tag? i = u.tag? i :=
    tag?_eq_of_contentOf (hf.contentOf i hi)
  have hts : t.nodes.size ≤ u.nodes.size := by
    by_contra hlt
    exact Nat.lt_irrefl _ (hle (Nat.lt_of_not_le hlt))
  refine ⟨h.rearranged.trans hf.rearranged,
    fun i hi => (hf.contentOf i (hle hi)).trans (h.contentOf i hi), fun i hi => ?_,
    fun w hw hlt => ?_, fun d hd hdr => ?_⟩
  · rw [hf.parentOf, if_neg (Nat.ne_of_lt (hle hi))]
    rcases h.parentOf i hi with hsame | ⟨w, hw, hiw, d, hd, hid⟩
    · rw [hsame]
      split
      · next hie => exact .inr ⟨u.nodes.size, hts, rfl, e, he, hie⟩
      · exact .inl rfl
    · have hne : u.parentOf i ≠ some e := by
        rw [hiw, ne_eq, Option.some.injEq]
        rintro rfl
        exact Nat.lt_irrefl _ (Nat.lt_of_lt_of_le (hids w he) hw)
      rw [if_neg hne]
      exact .inr ⟨w, hw, hiw, d, hd, hid⟩
  · by_cases hwu : w < u.nodes.size
    · obtain ⟨hwt, d, hd, hwd, hdr⟩ := h.new w hw hwu
      have hne : u.parentOf w ≠ some e := by
        rw [hwd, ne_eq, Option.some.injEq]
        rintro rfl
        exact hdr List.mem_cons_self
      refine ⟨(htag hwu).trans hwt, d, hd, ?_, fun hm => hdr (List.mem_cons_of_mem e hm)⟩
      rw [hf.parentOf, if_neg (Nat.ne_of_lt hwu), if_neg hne, hwd]
    · obtain rfl : w = u.nodes.size := by
        rw [hf.size] at hlt
        omega
      exact ⟨hf.tag?_new, e, he, by rw [hf.parentOf, if_pos rfl], her⟩
  · by_cases hde : d = e
    · subst hde
      refine ⟨u.nodes.size, hf.tag?_new, fun i => ?_⟩
      rw [hf.parentOf]
      by_cases hi : i = u.nodes.size
      · simp [hi]
      · rw [if_neg hi, iff_false_right hi]
        split
        · rw [Option.some.injEq]
          exact Nat.ne_of_gt (hle (hids d hd))
        · next hne => exact hne
    · obtain ⟨c, hct, hc⟩ := h.filled d hd fun hm => (List.mem_cons.1 hm).elim hde hdr
      have hcu := lt_size_of_tag? hct
      refine ⟨c, (htag hcu).trans hct, fun i => ?_⟩
      rw [hf.parentOf, ← hc i]
      by_cases hi : i = u.nodes.size
      · subst hi
        rw [if_pos rfl, parentOf_eq_none_of_size_le (Nat.le_refl _), Option.some.injEq]
        exact iff_of_false (Ne.symm hde) (by simp)
      · rw [if_neg hi]
        split
        · next hie =>
          rw [hie, Option.some.injEq, Option.some.injEq]
          exact iff_of_false (Nat.ne_of_gt (hle (hids d hd))) (Ne.symm hde)
        · rfl

end Filling

/-- After the rule for header cells each of them holds exactly a paragraph. The paragraphs that are
new are in cells, and so was what is in them now. -/
structure HeaderCells (t t' : Tree) : Prop where
  rearranged : Rearranged t t'
  movesOnly : MovesOnly (fun i => ∃ e, t.parentOf i = some e ∧ t.tag? e = some "entry") t t'
  moved : ∀ i < t.nodes.size, t'.parentOf i = t.parentOf i ∨
    ∃ w, t'.parentOf i = some w ∧ t'.tag? w = some "para"
  new : ∀ w, t.nodes.size ≤ w → w < t'.nodes.size →
    t'.tag? w = some "para" ∧ ∃ e, t'.parentOf w = some e ∧ t'.tag? e = some "entry"
  filled : ∀ e, t.Live e → IsHeaderCell t e → HoldsPara t' e

theorem run_wrapHeaderCells {t : Tree} (h : Proper t) :
    ∃ n t', wrapHeaderCells.apply.run t = .ok n t' ∧ HeaderCells t t' := by
  have hn : Selector.names "thead/row/entry" = [["thead"], ["row"], ["entry"]] := by cbv
  let ids := (Selector.mk [["thead"], ["row"], ["entry"]]).select t
  have hmem (e : NodeId) : e ∈ ids ↔ t.Live e ∧ IsHeaderCell t e := by
    rw [h.forest.mem_select, accepts_headerCell_iff]
  have hids : ∀ e ∈ ids, e < t.nodes.size := fun e he => h.lt_of_live ((hmem e).1 he).1
  have hentry : ∀ e ∈ ids, t.tag? e = some "entry" := fun e he => ((hmem e).1 he).2.1
  obtain ⟨n, t', hrun, hf, _⟩ := run_select_tally (Selector.parse_of_names hn rfl) wrapCell
    (fun rest u => Filling t ids rest u ∧ rest.Nodup ∧ ∀ e ∈ rest, e ∈ ids)
    (fun e rest u hinv => by
      obtain ⟨hf, hd, hsub⟩ := hinv
      obtain ⟨her, hd⟩ := List.nodup_cons.1 hd
      have he := hsub e List.mem_cons_self
      have hsub' : ∀ d ∈ rest, d ∈ ids := fun d hd => hsub d (List.mem_cons_of_mem e hd)
      obtain ⟨n, u', hrun, ⟨rfl, hc⟩ | hf'⟩ := run_wrapCell hf.rearranged.proper
        ((tag?_eq_of_contentOf (hf.contentOf e (hids e he))).trans (hentry e he))
      · exact ⟨n, u', hrun, hf.skip hc, hd, hsub'⟩
      · exact ⟨n, u', hrun, hf.step hids he her hf', hd, hsub'⟩)
    ⟨.refl h ids, h.forest.nodup_select _, fun _ he => he⟩
  have hmoves : MovesOnly (fun i => ∃ e, t.parentOf i = some e ∧ t.tag? e = some "entry") t t' :=
    hf.rearranged.movesOnly h hf.contentOf fun i hi hm => by
      refine (hf.parentOf i hi).resolve_right ?_
      rintro ⟨_, _, _, e, he, hie⟩
      exact hm ⟨e, hie, hentry e he⟩
  refine ⟨n, t', hrun, hf.rearranged, hmoves, fun i hi => ?_, fun w hw hlt => ?_,
    fun e hl he => hf.filled e ((hmem e).2 ⟨hl, he⟩) List.not_mem_nil⟩
  · refine (hf.parentOf i hi).imp_right ?_
    rintro ⟨w, hw, hiw, _⟩
    exact ⟨w, hiw, (hf.new w hw (hf.rearranged.proper.forest.parent_lt hiw)).1⟩
  · obtain ⟨ht, e, he, hwe, _⟩ := hf.new w hw hlt
    exact ⟨ht, e, hwe, (hmoves.tag?_eq (hids e he)).trans (hentry e he)⟩

/-! ### Attributions -/

def IsText (t : Tree) (i : NodeId) : Prop :=
  ∃ n, t.contentOf i = some n ∧ n.kind = .text

theorem IsText.kept {tags names : List String} {t t' : Tree} {i : NodeId} (h : IsText t i)
    (hk : Kept tags names t t') : IsText t' i := by
  obtain ⟨n, hn, ht⟩ := h
  obtain ⟨n', hn', hkind, _⟩ := hk i n hn
  exact ⟨n', hn', hkind.trans ht⟩

/-- A text of the tree that is not empty and has no white space at its ends. -/
def IsLine (t : Tree) (i : NodeId) : Prop :=
  ∃ value, t.contentOf i = some { Node.text value with id := i } ∧ Text.Trimmed value ∧ value ≠ ""

theorem IsLine.isText {t : Tree} {i : NodeId} (h : IsLine t i) : IsText t i := by
  obtain ⟨value, hv, _⟩ := h
  exact ⟨_, hv, rfl⟩

theorem IsLine.of_contentOf {t t' : Tree} {i : NodeId} (h : IsLine t i)
    (hc : t'.contentOf i = t.contentOf i) : IsLine t' i := by
  obtain ⟨value, hv, hline⟩ := h
  exact ⟨value, hc.trans hv, hline⟩

/-- Directly below the node there is a text or nothing. -/
def Flat (t : Tree) (a : NodeId) : Prop :=
  ∀ c, t.parentOf c = some a → IsText t c ∧ ∀ d, t.parentOf d = some a → d = c

/-- After the rule for attributions exactly what was below the live ones is lost. Every new node is a
text in one, and they hold nothing else. -/
structure Attributions (t t' : Tree) : Prop where
  movesOnly : MovesOnly (fun _ => False) t t'
  live : ∀ i < t.nodes.size, t'.Live i ↔
    t.Live i ∧ ¬ ∃ a, t.tag? a = some "attribution" ∧ Below t i a
  new : ∀ i, t.nodes.size ≤ i → t'.Live i →
    IsLine t' i ∧ ∃ a, t'.parentOf i = some a ∧ t'.tag? a = some "attribution"
  flat : ∀ a, t.Live a → t.tag? a = some "attribution" → Flat t' a

/-! ### Quotations -/

theorem run_wrapQuote {t : Tree} (h : Proper t) {q : NodeId} (hq : q < t.nodes.size) :
    ∃ n t', (wrapQuote q).run t = .ok n t' ∧
      ((t' = t ∧ ∀ p, t.parentOf q = some p → (t.tag? p == some "para") = true) ∨
      ∃ p, (t.tag? p == some "para") = false ∧ Enclosed "para" t q p t' ∧
        ∀ i < t.nodes.size, t'.contentOf i = t.contentOf i) := by
  simp only [wrapQuote, EStateM.run_bind, run_parent? hq]
  cases hp : t.parentOf q with
  | none => exact ⟨0, t, rfl, .inl ⟨rfl, fun p hp' => by simp at hp'⟩⟩
  | some p =>
      simp only [EStateM.run_bind, EStateM.run_get]
      split
      · next hin => exact ⟨0, t, rfl, .inl ⟨rfl, fun r hr => Option.some.inj hr ▸ hin⟩⟩
      next hin =>
      obtain ⟨t₁, hrun₁, hr₁, hsize₁, hcont₁, hpar₁, -⟩ :=
        run_insertBefore_wrapper h hp "para" (by decide)
      have hne : q ≠ t.nodes.size := Nat.ne_of_lt hq
      have hwt : t₁.tag? t.nodes.size = some "para" := by
        rw [tag?_eq, hcont₁, if_pos rfl]
        rfl
      obtain ⟨t₂, hrun₂, hr₂, hsize₂, hcont₂, hpar₂, -⟩ := run_appendChild_sibling hr₁.proper
        (by rw [hpar₁, if_pos rfl]) (by rw [hpar₁, if_neg hne, hp]) hne.symm hwt (by decide)
      refine ⟨1, t₂, ?_, .inr ⟨p, Bool.not_eq_true _ ▸ hin,
        ⟨hr₁.trans hr₂, hsize₂.trans hsize₁, ?_, hp, fun i => ?_⟩,
        fun i hi => by rw [hcont₂, hcont₁, if_neg (Nat.ne_of_lt hi)]⟩⟩
      · simp only [EStateM.run_bind, run_create, hrun₁, hrun₂, EStateM.run_pure]
      · rw [tag?_eq_of_contentOf (hcont₂ _), hwt]
      · rw [hpar₂, hpar₁]

/-- After the rule for quotations each of them has no parent or a paragraph for its parent. The
paragraphs that are new stand where a quotation was, and hold it. -/
structure Quoted (t t' : Tree) : Prop where
  rearranged : Rearranged t t'
  movesOnly : MovesOnly (fun i => t.tag? i = some "blockquote") t t'
  quoted : ∀ q, t.Live q → t.tag? q = some "blockquote" → ∀ p, t.parentOf q = some p →
    t'.parentOf q = some p ∧ t'.tag? p = some "para" ∨
    ∃ w, t'.parentOf q = some w ∧ t'.tag? w = some "para" ∧ t'.parentOf w = some p
  new : ∀ w, t.nodes.size ≤ w → w < t'.nodes.size → t'.tag? w = some "para" ∧
    ∃ q p, t.tag? q = some "blockquote" ∧ t.parentOf q = some p ∧ t'.parentOf q = some w ∧
      t'.parentOf w = some p

theorem run_wrapBlockquotes {t : Tree} (h : Proper t) :
    ∃ n t', wrapBlockquotes.apply.run t = .ok n t' ∧ Quoted t t' := by
  have hn : Selector.names "blockquote" = [["blockquote"]] := by cbv
  let ids := (Selector.mk [["blockquote"]]).select t
  have hmem (q : NodeId) : q ∈ ids ↔ t.Live q ∧ t.tag? q = some "blockquote" := by
    rw [h.forest.mem_select, Selector.accepts_one_iff]
    simp
  have hids : ∀ q ∈ ids, q < t.nodes.size := fun q hq => h.lt_of_live ((hmem q).1 hq).1
  obtain ⟨n, t', hrun, he, hcont, _⟩ := run_select_tally (Selector.parse_of_names hn rfl) wrapQuote
    (fun rest u => Enclosing "para" (· == some "para") t ids rest u ∧
      (∀ i < t.nodes.size, u.contentOf i = t.contentOf i) ∧ rest.Nodup ∧ ∀ q ∈ rest, q ∈ ids)
    (fun q rest u hinv => by
      obtain ⟨he, hcont, hd, hsub⟩ := hinv
      obtain ⟨hqr, hd⟩ := List.nodup_cons.1 hd
      have hq := hsub q List.mem_cons_self
      have hle {i : NodeId} (hi : i < t.nodes.size) := he.rearranged.kept.lt hi
      have hsub' : ∀ r ∈ rest, r ∈ ids := fun r hr => hsub r (List.mem_cons_of_mem q hr)
      obtain ⟨n, u', hrun, ⟨rfl, hs⟩ | ⟨p, hs, hen, hcont'⟩⟩ :=
        run_wrapQuote he.rearranged.proper (hle (hids q hq))
      · exact ⟨n, u', hrun, he.skip h (hids q hq) hs, hcont, hd, hsub'⟩
      · refine ⟨n, u', hrun, he.step h hids hq hqr hen (by decide) hs fun i hi => ?_,
          fun i hi => (hcont' i (hle hi)).trans (hcont i hi), hd, hsub'⟩
        rw [tag?_eq_of_contentOf (hcont' i hi)])
    ⟨.refl h ids, fun _ _ => rfl, h.forest.nodup_select _, fun _ hq => hq⟩
  have hmoves : MovesOnly (fun i => t.tag? i = some "blockquote") t t' :=
    he.rearranged.movesOnly h hcont fun i hi hm =>
      he.parentOf i hi fun hin => absurd ((hmem i).1 hin).2 hm
  have hlt {i j : NodeId} (hij : t'.parentOf i = some j) := he.rearranged.proper.forest.parent_lt hij
  refine ⟨n, t', hrun, he.rearranged, hmoves, fun q hl hq p hp => ?_, fun w hw hlt' => ?_⟩
  · rcases he.passed q ((hmem q).2 ⟨hl, hq⟩) List.not_mem_nil with
      ⟨hsame, hs⟩ | ⟨r, w, hr, _, hw, hqw, hwr⟩
    · refine .inl ⟨hsame.trans hp, ?_⟩
      rw [hmoves.tag?_eq (h.forest.parent_lt hp)]
      simpa using hs p hp
    · rw [hp, Option.some.injEq] at hr
      exact .inr ⟨w, hqw, (he.new w hw (hlt hqw)).1, hr ▸ hwr⟩
  · obtain ⟨ht, q, hq, _, hqw⟩ := he.new w hw hlt'
    obtain ⟨p, hp, hwp⟩ := he.parentOf_new h hq hw hqw
    exact ⟨ht, q, p, ((hmem q).1 hq).2, hp, hqw, hwp⟩

end BookMarkup.Rule
