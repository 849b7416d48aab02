import BookMarkup.Proofs.Rule.Idle
import BookMarkup.Proofs.Rule.Schema
import BookMarkup.Proofs.Tree.Copied

/-!
Trees in which the rules find nothing to do. Nearly all of them are idle there; only the rule for
attributions takes out each line and puts in a new one that says the same, so that a run of all rules
leaves a copy of the tree.
-/

namespace BookMarkup

/-! ### Selectors on copies -/

namespace Tree

section Copied

variable {f : NodeId → NodeId} {t t' : Tree} (h : Copied f t t') (ht : Proper t)

include h ht

theorem Copied.accepts_eq (s : Selector) {i : NodeId} (hl : t.Live i) :
    s.accepts t' (f i) = s.accepts t i := by
  rw [Selector.accepts, Selector.accepts]
  generalize s.steps.reverse = steps
  induction steps generalizing i with
  | nil => simp
  | cons step steps ih =>
      rw [Bool.eq_iff_iff, Selector.climbs_cons_iff, Selector.climbs_cons_iff]
      simp only [Option.some.injEq, exists_eq_left', h.tag? ht.forest hl, h.parentOf ht.forest hl]
      refine exists_congr fun tag => and_congr_right fun _ => and_congr_right fun _ => ?_
      cases hp : t.parentOf i with
      | none => cases steps <;> simp [Selector.climbs]
      | some p => rw [Option.map_some, ih (hl.parent ht hp)]

theorem Copied.exists_mem_select (ht' : Proper t') {s : Selector} {j : NodeId}
    (hj : j ∈ s.select t') : ∃ i ∈ s.select t, f i = j := by
  obtain ⟨hl, ha⟩ := ht'.forest.mem_select.1 hj
  obtain ⟨i, hli, rfl⟩ := h.exists_live ht.forest ht'.forest hl
  exact ⟨i, ht.forest.mem_select.2 ⟨hli, (h.accepts_eq ht s hli).symm.trans ha⟩, rfl⟩

end Copied

end Tree

namespace Rule

open BookMarkup.Tree

/-! ### Attributions -/

section Line

variable {t : Tree} (h : Proper t) {a x : NodeId} {value : String}

include h

theorem textContent_of_text (hx : t.contentOf x = some { Node.text value with id := x }) :
    t.textContent x = .ok value := by
  have hx' := hx
  obtain ⟨n, hn, hcontent⟩ := Option.map_eq_some_iff.1 hx
  have hchildren : n.children = [] := by
    rw [← childrenOf_of_get? hn]
    exact h.childrenOf_eq_nil (by rw [tag?_eq, hx']; rfl)
  have hkind : n.kind = .text := congrArg Node.kind hcontent
  have hvalue : n.value = value := congrArg Node.value hcontent
  rw [h.forest.textContent_eq (lt_size_of_get? hn), h.forest.subtree_eq hn, hchildren]
  simp [Node.isCharacterData, hkind, hvalue]

/-- What is in the tree in which a new node takes the place of the only child of `a`. -/
theorem views_replanted (hc : t.childrenOf a = [x]) (content : Node) :
    (planted (t.detached x) a 0 content).root = t.root ∧
    (∀ i, (planted (t.detached x) a 0 content).contentOf i =
      if i = t.nodes.size then some { content.content with id := t.nodes.size }
      else t.contentOf i) ∧
    (∀ i, (planted (t.detached x) a 0 content).parentOf i =
      if i = t.nodes.size then some a else if i = x then none else t.parentOf i) ∧
    ∀ i, (planted (t.detached x) a 0 content).childrenOf i =
      if i = a then [t.nodes.size] else t.childrenOf i := by
  have hf := h.forest
  have hxa : t.parentOf x = some a := hf.mem_childrenOf.1 (by simp [hc])
  obtain ⟨tag, hat⟩ := h.element hxa
  have hu := h.detached x
  have hau : (t.detached x).tag? a = some tag :=
    (tag?_eq_of_contentOf (contentOf_detached hf x a)).trans hat
  have hsize : (t.detached x).nodes.size = t.nodes.size := size_detached x
  have hlt := lt_size_of_tag? hau
  refine ⟨?_, fun i => ?_, fun i => ?_, fun i => ?_⟩
  · rw [(hu.planted 0 content hau).2, root_detached, if_neg (by simp [hxa])]
  · rw [contentOf_planted hu hlt, hsize, contentOf_detached hf]
  · rw [parentOf_planted hu hlt, hsize, parentOf_detached hf]
  · rw [childrenOf_planted hu hlt, hsize, childrenOf_detached hf]
    by_cases hia : i = a
    · subst hia
      simp [hc]
    · have hnot : ∀ c ∈ t.childrenOf i, c ≠ x := by
        rintro c hm rfl
        rw [hf.mem_childrenOf, hxa, Option.some.injEq] at hm
        exact hia hm.symm
      rw [if_neg hia, if_neg hia, List.filter_eq_self.2 fun c hm => by simpa using hnot c hm]

/-- Taking out a text and planting one in its place that says the same makes a copy. -/
theorem copied_replanted (hc : t.childrenOf a = [x])
    (hx : t.contentOf x = some { Node.text value with id := x }) :
    Copied (fun i => if i = x then t.nodes.size else i) t
      (planted (t.detached x) a 0 (Node.text value)) := by
  have hf := h.forest
  obtain ⟨hroot, hcont, hpar, hchild⟩ := views_replanted h hc (Node.text value)
  have hxa : t.parentOf x = some a := hf.mem_childrenOf.1 (by simp [hc])
  have hax : a ≠ x := hf.parent_ne hxa
  have hnil : t.childrenOf x = [] := h.childrenOf_eq_nil (by rw [tag?_eq, hx]; rfl)
  have hbelow {i p : NodeId} (hp : t.parentOf i = some p) : p ≠ x := by
    rintro rfl
    have hm := hf.mem_childrenOf.2 hp
    simp [hnil] at hm
  refine .of_views ?_ (fun i hl => ?_) (fun i hl => ?_) (fun i hl => ?_) hf
  · rw [hroot]
    cases hr : t.root with
    | none => rfl
    | some r =>
        have hrx : r ≠ x := fun hrx => h.root_ne_of_parentOf hxa (hrx ▸ hr)
        rw [Option.map_some, if_neg hrx]
  · by_cases hi : i = x
    · subst hi
      rw [if_pos rfl, hcont, if_pos rfl, hx]
      rfl
    · rw [if_neg hi, hcont, if_neg (Nat.ne_of_lt (h.lt_of_live hl)), hf.map_contentOf]
  · by_cases hi : i = x
    · subst hi
      rw [if_pos rfl, hpar, if_pos rfl, hxa, Option.map_some, if_neg hax]
    · rw [if_neg hi, hpar, if_neg (Nat.ne_of_lt (h.lt_of_live hl)), if_neg hi]
      cases hp : t.parentOf i with
      | none => rfl
      | some p => rw [Option.map_some, if_neg (hbelow hp)]
  · by_cases hi : i = x
    · subst hi
      have hsa : t.nodes.size ≠ a := (Nat.ne_of_lt (hf.parent_lt hxa)).symm
      rw [if_pos rfl, hchild, if_neg hsa, hnil, childrenOf_eq_nil_of_size_le (Nat.le_refl _)]
      rfl
    · rw [if_neg hi, hchild]
      split
      · next hia => simp [hia, hc]
      · next hia =>
        have hkeep : ∀ c ∈ t.childrenOf i, (if c = x then t.nodes.size else c) = c := by
          intro c hm
          refine if_neg ?_
          rintro rfl
          rw [hf.mem_childrenOf, hxa, Option.some.injEq] at hm
          exact hia hm.symm
        exact ((List.map_congr_left hkeep).trans (List.map_id _)).symm

/-- The rule leaves a copy of a tree in which the attribution holds one line or nothing. -/
theorem run_flattenAttribution_of_flat (ha : t.tag? a = some "attribution")
    (hflat : t.childrenOf a = [] ∨ ∃ x, t.childrenOf a = [x] ∧ IsLine t x) :
    ∃ n u f, (flattenAttribution a).run t = .ok n u ∧ Proper u ∧ Copied f t u ∧
      ∀ i tag, t.tag? i = some tag → f i = i := by
  simp only [flattenAttribution, EStateM.run_bind, run_childIds (lt_size_of_tag? ha)]
  rcases hflat with hnil | ⟨x, hc, value, hx, htrim, hne⟩
  · rw [hnil]
    exact ⟨1, t, id, rfl, h, .refl t, fun _ _ _ => rfl⟩
  · have hu := h.detached x
    have hxs : x < t.nodes.size := contentOf_isSome_iff.1 (by simp [hx])
    have hau : (t.detached x).tag? a = some "attribution" :=
      (tag?_eq_of_contentOf (contentOf_detached h.forest x a)).trans ha
    have hnone : (t.detached x).childrenOf a = [] := by
      rw [childrenOf_detached h.forest, hc]
      simp
    have htext : (([x] : List NodeId).mapM fun child => Edit.ask (·.textContent child)).run t =
        .ok [value] t := by
      simp only [List.mapM_cons, List.mapM_nil, EStateM.run_bind, run_ask,
        textContent_of_text h hx, EStateM.run_pure]
    have hremove : (([x] : List NodeId).forM Edit.remove).run t = .ok () (t.detached x) := by
      change (Edit.remove x >>= fun _ => pure ()).run t = _
      simp only [EStateM.run_bind, Edit.remove, run_detach h.forest, hxs, if_true,
        EStateM.run_pure]
    have happend := run_appendChild_new hu (Node.text value) hau
    rw [hnone] at happend
    refine ⟨1, _, _, ?_, (hu.planted 0 (Node.text value) hau).1, copied_replanted h hc hx,
      fun i tag ht => if_neg ?_⟩
    · rw [hc]
      have hparts : ([value].filter fun part => part ≠ "") = [value] := by simp [hne]
      simp only [htext, hremove, List.map_cons, List.map_nil, htrim.trim_eq, hparts,
        List.isEmpty_cons, Bool.false_eq_true, if_false, String.intercalate_singleton,
        EStateM.run_bind, run_create, happend, EStateM.run_pure, List.length_nil]
    · rintro rfl
      rw [tag?_eq, hx] at ht
      simp [Node.tag?, Node.isElement, Node.text] at ht

end Line

theorem IsLine.copied {f : NodeId → NodeId} {t u : Tree} {x : NodeId} (hx : IsLine t x)
    (hf : Forest t) (hc : Copied f t u) (hl : t.Live x) : IsLine u (f x) := by
  obtain ⟨value, hv, hline⟩ := hx
  exact ⟨value, by rw [hc.contentOf hf hl, hv]; rfl, hline⟩

theorem run_flattenAttributions_of_flat {t : Tree} (h : Proper t)
    (hflat : ∀ a, t.Live a → t.tag? a = some "attribution" →
      t.childrenOf a = [] ∨ ∃ x, t.childrenOf a = [x] ∧ IsLine t x) :
    ∃ n u f, flattenAttributions.apply.run t = .ok n u ∧ Proper u ∧ Copied f t u := by
  have hn : Selector.names "attribution" = [["attribution"]] := by cbv
  obtain ⟨n, u, hrun, f, hu, hc, _⟩ := run_select_tally (Selector.parse_of_names hn rfl)
    flattenAttribution
    (fun rest u => ∃ f, Proper u ∧ Copied f t u ∧
      (∀ i tag, t.Live i → t.tag? i = some tag → f i = i) ∧
      ∀ a ∈ rest, t.Live a ∧ t.tag? a = some "attribution")
    (fun a rest u hinv => by
      obtain ⟨f, hu, hc, hsame, hids⟩ := hinv
      obtain ⟨hl, ha⟩ := hids a List.mem_cons_self
      have hfa := hsame a _ hl ha
      have htag {i : NodeId} {tag : String} (hl : t.Live i) (ht : t.tag? i = some tag) :
          u.tag? i = some tag := by
        rw [← ht, ← hc.tag? h.forest hl, hsame i tag hl ht]
      have hchild := hc.childrenOf h.forest hl
      rw [hfa] at hchild
      have hflat' : u.childrenOf a = [] ∨ ∃ x, u.childrenOf a = [x] ∧ IsLine u x := by
        rcases hflat a hl ha with hnil | ⟨x, hx, hline⟩
        · exact .inl (by rw [hchild, hnil, List.map_nil])
        · have hlx : t.Live x := hl.child (h.forest.mem_childrenOf.1 (by simp [hx]))
          exact .inr ⟨f x, by rw [hchild, hx, List.map_singleton], hline.copied h.forest hc hlx⟩
      obtain ⟨n, u', g, hrun, hu', hc', hsame'⟩ :=
        run_flattenAttribution_of_flat hu (htag hl ha) hflat'
      refine ⟨n, u', hrun, g ∘ f, hu', hc.trans h.forest hc', fun i tag hli ht => ?_,
        fun b hb => hids b (List.mem_cons_of_mem a hb)⟩
      rw [Function.comp_apply, hsame i tag hli ht, hsame' i tag (htag hli ht)])
    ⟨id, h, .refl t, fun _ _ _ _ => rfl, fun a ha => by
      obtain ⟨hl, hacc⟩ := h.forest.mem_select.1 ha
      obtain ⟨tag, ht, hm⟩ := Selector.accepts_one_iff.1 hacc
      exact ⟨hl, List.mem_singleton.1 hm ▸ ht⟩⟩
  exact ⟨n, u, f, hrun, hu, hc⟩

/-! ### Trees at rest -/

/-- There is nothing for the rules to move: no part has loose content, or an appendix unless it is at
the top, and no list of callouts comes right after a listing. -/
structure Undisturbed (t : Tree) : Prop where
  tidied : Tidied t
  hoisted : ∀ a p, t.Live a → t.tag? a = some "appendix" → t.parentOf a = some p →
    t.tag? p = some "part" → t.parentOf p = none
  attached : ∀ c p prev tag, t.Live c → t.tag? c = some "calloutlist" →
    [prev, c] <:+: t.childrenOf p → t.tag? prev = some tag →
    "example".toList.isSuffixOf tag.toList = false

/-- A tree in the schema in which the rules find nothing to do: moreover every part has its
introduction and every listing its wrapper, attributions hold lines, and references no target names. -/
structure Rested (t : Tree) : Prop extends InSchema t, Undisturbed t where
  introduced : ∀ p, t.Live p → t.tag? p = some "part" → HasIntro t p
  listed : ∀ b p, t.Live b → IsCode t b → t.parentOf b = some p →
    isListingWrapper (t.tag? p) = true
  lines : ∀ a x, t.Live a → t.tag? a = some "attribution" → t.parentOf x = some a → IsLine t x
  unlabelled : ∀ x, t.Live x → t.tag? x = some "xref" → t.attribute? x "linkend" = none

section Copied

variable {f : NodeId → NodeId} {t t' : Tree} (hc : Copied f t t') (ht : Proper t) (ht' : Proper t')

include hc ht ht'

theorem InSchema.copied (h : InSchema t) : InSchema t' where
  tags j hj tag htag := by
    obtain ⟨i, hl, rfl⟩ := hc.exists_live ht.forest ht'.forest (ht'.forest.mem_map_live.1 hj)
    rw [hc.tag? ht.forest hl] at htag
    exact h.tags i (ht.forest.mem_map_live.2 hl) tag htag
  places path hp := by
    obtain ⟨s, hs, hnil⟩ := h.places path hp
    refine ⟨s, hs, List.eq_nil_iff_forall_not_mem.2 fun j hj => ?_⟩
    obtain ⟨i, hi, -⟩ := hc.exists_mem_select ht ht' hj
    simp [hnil] at hi
  attributes p hp := by
    obtain ⟨s, hs, hgone⟩ := h.attributes p hp
    refine ⟨s, hs, fun j hj name hname => ?_⟩
    obtain ⟨i, hi, rfl⟩ := hc.exists_mem_select ht ht' hj
    rw [hc.attribute? ht.forest (ht.forest.mem_select.1 hi).1, hgone i hi name hname]
  headerCells := by
    obtain ⟨s, hs, hheld⟩ := h.headerCells
    refine ⟨s, hs, fun j hj => ?_⟩
    obtain ⟨i, hi, rfl⟩ := hc.exists_mem_select ht ht' hj
    have hl := (ht.forest.mem_select.1 hi).1
    obtain ⟨c, hchild, hct⟩ := hheld i hi
    have hlc : t.Live c := hl.child (ht.forest.mem_childrenOf.1 (by simp [hchild]))
    exact ⟨f c, by rw [hc.childrenOf ht.forest hl, hchild, List.map_singleton],
      (hc.tag? ht.forest hlc).trans hct⟩
  attributions j hj hja := by
    obtain ⟨a, hl, rfl⟩ := hc.exists_live ht.forest ht'.forest (ht'.forest.mem_map_live.1 hj)
    rw [hc.tag? ht.forest hl] at hja
    rw [hc.childrenOf ht.forest hl]
    rcases h.attributions a (ht.forest.mem_map_live.2 hl) hja with hnil | ⟨x, hx, n, hn, hk⟩
    · exact .inl (by rw [hnil, List.map_nil])
    · have hlx : t.Live x := hl.child (ht.forest.mem_childrenOf.1 (by simp [hx]))
      exact .inr ⟨f x, by rw [hx, List.map_singleton], { n with id := f x },
        by rw [hc.contentOf ht.forest hlx, hn, Option.map_some], hk⟩
  quotations j hj hjq := by
    obtain ⟨q, hl, rfl⟩ := hc.exists_live ht.forest ht'.forest (ht'.forest.mem_map_live.1 hj)
    rw [hc.tag? ht.forest hl] at hjq
    rcases h.quotations q (ht.forest.mem_map_live.2 hl) hjq with hr | ⟨p, hp, hpt⟩
    · exact .inl (by rw [hc.root, hr, Option.map_some])
    · exact .inr ⟨f p, by rw [hc.parentOf ht.forest hl, hp, Option.map_some],
        (hc.tag? ht.forest (hl.parent ht hp)).trans hpt⟩

theorem Undisturbed.copied (h : Undisturbed t) : Undisturbed t' where
  tidied j hj hjt d hd := by
    obtain ⟨c, p, hlc, hl, hcp, rfl, rfl⟩ := hc.exists_parentOf ht ht'.forest (hj.child hd) hd
    rw [hc.tag? ht.forest hl] at hjt
    rw [hc.tag? ht.forest hlc, h.tidied p hl hjt c hcp]
  hoisted j q hj hja hq hqt := by
    obtain ⟨a, p, hla, hl, hap, rfl, rfl⟩ := hc.exists_parentOf ht ht'.forest hj hq
    rw [hc.tag? ht.forest hla] at hja
    rw [hc.tag? ht.forest hl] at hqt
    rw [hc.parentOf ht.forest hl, h.hoisted a p hla hja hap hqt, Option.map_none]
  attached j q prev tag hj hjt hpair hprev := by
    have hmem : j ∈ t'.childrenOf q := hpair.subset (by simp)
    obtain ⟨c, p, hlc, hl, hcp, rfl, rfl⟩ :=
      hc.exists_parentOf ht ht'.forest hj (ht'.forest.mem_childrenOf.1 hmem)
    rw [hc.childrenOf ht.forest hl] at hpair
    obtain ⟨pair, hsub, he⟩ := List.infix_map_iff.1 hpair
    rw [eq_comm, List.map_eq_cons_iff] at he
    obtain ⟨a, _, rfl, rfl, he⟩ := he
    rw [List.map_eq_singleton_iff] at he
    obtain ⟨b, rfl, hb⟩ := he
    have hlive {i : NodeId} (hi : i ∈ [a, b]) : t.Live i :=
      hl.child (ht.forest.mem_childrenOf.1 (hsub.subset hi))
    obtain rfl := hc.injective ht ht'.forest (hlive (by simp)) hlc hb
    rw [hc.tag? ht.forest hlc] at hjt
    rw [hc.tag? ht.forest (hlive (by simp))] at hprev
    exact h.attached b p a tag hlc hjt hsub hprev

/-- Whether a tree is at rest does not depend on the numbers of its nodes. -/
theorem Rested.copied (h : Rested t) : Rested t' where
  toInSchema := h.toInSchema.copied hc ht ht'
  toUndisturbed := h.toUndisturbed.copied hc ht ht'
  introduced j hj hjt := by
    obtain ⟨p, hl, rfl⟩ := hc.exists_live ht.forest ht'.forest hj
    rw [hc.tag? ht.forest hl] at hjt
    obtain ⟨c, hcp, hct⟩ := h.introduced p hl hjt
    have hlc : t.Live c := hl.child hcp
    exact ⟨f c, by rw [hc.parentOf ht.forest hlc, hcp, Option.map_some],
      (hc.tag? ht.forest hlc).trans hct⟩
  listed j q hj hcode hq := by
    obtain ⟨b, p, hlb, hl, hbp, rfl, rfl⟩ := hc.exists_parentOf ht ht'.forest hj hq
    rw [IsCode, hc.tag? ht.forest hlb] at hcode
    rw [hc.tag? ht.forest hl]
    exact h.listed b p hlb hcode hbp
  lines j y hj hja hy := by
    obtain ⟨x, a, hlx, hl, hxa, rfl, rfl⟩ := hc.exists_parentOf ht ht'.forest (hj.child hy) hy
    rw [hc.tag? ht.forest hl] at hja
    exact (h.lines a x hl hja hxa).copied ht.forest hc hlx
  unlabelled j hj hjt := by
    obtain ⟨x, hl, rfl⟩ := hc.exists_live ht.forest ht'.forest hj
    rw [hc.tag? ht.forest hl] at hjt
    rw [hc.attribute? ht.forest hl, h.unlabelled x hl hjt]

end Copied

/-! ### Rules on trees at rest -/

section Rested

variable {t : Tree} (ht : Proper t) (h : Rested t)

include ht h

theorem Rested.select_tag {tag : String}
    (hm : tag ∈ ["simpara", "literal", "phrase", "textobject", "colspec"]) :
    (Selector.mk [[tag]]).select t = [] := by
  refine List.eq_nil_iff_forall_not_mem.2 fun i hi => ?_
  obtain ⟨hl, ha⟩ := ht.forest.mem_select.1 hi
  obtain ⟨tag', htag, hm'⟩ := Selector.accepts_one_iff.1 ha
  exact h.tags i (ht.forest.mem_map_live.2 hl) tag' htag (List.mem_singleton.1 hm' ▸ hm)

theorem Rested.idle_renameElements : Idle (renameElements bookTags).apply t := by
  have hold : ∀ p ∈ bookTags, p.1 ∈ ["simpara", "literal", "phrase", "textobject", "colspec"] := by
    decide
  exact idle_renameEach fun p hp => ⟨_, parse_bookTags p hp, h.select_tag ht (hold p hp)⟩

omit ht in
theorem Rested.idle_removeElements : Idle (removeEach prunedElements) t :=
  idle_removeEach fun path hp => h.places path (List.mem_append_left [_] hp)

/-- Code blocks have neither of their attributes, in whichever order the selector names them. -/
theorem Rested.attribute?_code {i : NodeId} (hl : t.Live i) (hc : IsCode t i) :
    ∀ name ∈ ["linenumbering", "language"], t.attribute? i name = none := by
  have hn : Selector.names "screen|programlisting" = [["screen", "programlisting"]] := by cbv
  obtain ⟨s, hs, hgone⟩ :=
    h.attributes ("screen|programlisting", ["linenumbering", "language"]) (by simp)
  obtain rfl : Selector.mk [["screen", "programlisting"]] = s :=
    Except.ok.inj ((Selector.parse_of_names hn rfl).symm.trans hs)
  exact hgone i (ht.forest.mem_select.2 ⟨hl, Selector.accepts_one_iff.2 hc⟩)

theorem Rested.stripped : ∀ p ∈ prunedAttributes, ∃ s, Selector.parse p.1 = .ok s ∧
    ∀ i ∈ s.select t, ∀ name ∈ p.2, t.attribute? i name = none := by
  have hn : Selector.names "programlisting|screen" = [["programlisting", "screen"]] := by cbv
  intro p hp
  simp only [prunedAttributes, List.mem_cons, List.not_mem_nil, or_false] at hp
  rcases hp with rfl | rfl | rfl | rfl
  · exact h.attributes _ (by simp)
  · refine ⟨_, Selector.parse_of_names hn rfl, fun i hi name hname => ?_⟩
    obtain ⟨hl, ha⟩ := ht.forest.mem_select.1 hi
    have hc : IsCode t i := by simpa [IsCode, or_comm] using Selector.accepts_one_iff.1 ha
    exact h.attribute?_code ht hl hc name (List.mem_cons.2 (.inl (List.mem_singleton.1 hname)))
  · exact h.attributes _ (by simp)
  · exact h.attributes _ (by simp)

theorem Rested.idle_pruneMetadata :
    Idle (pruneMetadata prunedElements prunedAttributes).apply t :=
  h.idle_removeElements.bind
    ((idle_removeAttributesEach ht (h.stripped ht)).bind idle_pure)

omit ht in
theorem Rested.idle_formalListings : Idle formalListings.apply t := by
  obtain ⟨s, hs, hnil⟩ := h.places ("formalpara/para/" ++ codeBlocks) (by decide)
  exact idle_select_tally hs fun b hb => by simp [hnil] at hb

theorem Rested.idle_hoistAppendices : Idle hoistAppendices.apply t := by
  have hn : Selector.names "part/appendix" = [["part"], ["appendix"]] := by cbv
  refine idle_bind (run_select (Selector.parse_of_names hn rfl) t) ?_
  refine idle_hoistFrom ht fun a ha => ?_
  obtain ⟨hl, hacc⟩ := ht.forest.mem_select.1 ha
  obtain ⟨tag, htag, hm, p, hp, outer, ho, hm'⟩ := Selector.accepts_two_iff.1 hacc
  rw [List.mem_singleton.1 hm] at htag
  rw [List.mem_singleton.1 hm'] at ho
  exact ⟨p, hp, h.hoisted a p hl htag hp ho⟩

theorem Rested.idle_attachCalloutLists : Idle attachCalloutLists.apply t := by
  have hn : Selector.names "calloutlist" = [["calloutlist"]] := by cbv
  refine idle_select_tally (Selector.parse_of_names hn rfl) fun c hc => ?_
  obtain ⟨hl, ha⟩ := ht.forest.mem_select.1 hc
  obtain ⟨tag, htag, hm⟩ := Selector.accepts_one_iff.1 ha
  rw [List.mem_singleton.1 hm] at htag
  exact idle_attachCallouts ht (ht.lt_of_live hl) fun p prev tag => h.attached c p prev tag hl htag

theorem Rested.idle_wrapHeaderCells : Idle wrapHeaderCells.apply t := by
  obtain ⟨s, hs, hheld⟩ := h.headerCells
  refine idle_select_tally hs fun e he => ?_
  obtain ⟨c, hc, hct⟩ := hheld e he
  exact idle_wrapCell (ht.lt_of_live (ht.forest.mem_select.1 he).1) hc hct

/-- A quotation with a parent is not the root, so that it is in a paragraph. -/
theorem Rested.tag?_parentOf_quotation {q p : NodeId} (hl : t.Live q)
    (hq : t.tag? q = some "blockquote") (hp : t.parentOf q = some p) : t.tag? p = some "para" := by
  rcases h.quotations q (ht.forest.mem_map_live.2 hl) hq with hr | ⟨r, hr, hrt⟩
  · exact absurd hr (ht.root_ne_of_parentOf hp)
  · exact Option.some.inj (hp.symm.trans hr) ▸ hrt

theorem Rested.idle_labelCrossReferences : Idle labelCrossReferences.apply t := by
  have hn : Selector.names "xref" = [["xref"]] := by cbv
  refine idle_bind (EStateM.run_get t) ?_
  refine idle_select_tally (Selector.parse_of_names hn rfl) fun x hx => ?_
  obtain ⟨hl, ha⟩ := ht.forest.mem_select.1 hx
  obtain ⟨tag, htag, hm⟩ := Selector.accepts_one_iff.1 ha
  rw [List.mem_singleton.1 hm] at htag
  exact idle_labelReference (h.unlabelled x hl htag)

theorem Rested.idle_columnSpecs : Idle columnSpecs.apply t := by
  have hn : Selector.names "colspec" = [["colspec"]] := by cbv
  refine idle_removeEach fun path hp => ?_
  rw [List.mem_singleton.1 hp]
  exact ⟨_, Selector.parse_of_names hn rfl, h.select_tag ht (by simp)⟩

theorem Rested.exists_flattened : ∃ n u f, flattenAttributions.apply.run t = .ok n u ∧
    Proper u ∧ Copied f t u := by
  refine run_flattenAttributions_of_flat ht fun a hl ha => ?_
  refine (h.attributions a (ht.forest.mem_map_live.2 hl) ha).imp_right ?_
  rintro ⟨x, hx, -⟩
  exact ⟨x, hx, h.lines a x hl ha (ht.forest.mem_childrenOf.1 (by simp [hx]))⟩

/-- A run of all rules on a tree at rest leaves a copy of it. -/
theorem Rested.exists_run : ∃ n u f, (runAll bookRules).run t = .ok n u ∧ Proper u ∧
    Copied f t u := by
  have hrun₉ : (runAll (bookRules.take 9)).run t = .ok 0 t := by
    refine runAll_of_idle ?_
    simp only [bookRules, List.take_succ_cons, List.take_zero, List.forall_mem_cons,
      List.not_mem_nil, false_imp_iff, implies_true, and_true]
    exact ⟨h.idle_renameElements ht, h.idle_pruneMetadata ht, idle_partIntro ht h.tidied h.introduced,
      idle_codeLanguage ht fun b hl hb => h.attribute?_code ht hl hb _ (by simp),
      h.idle_formalListings, idle_informalListings ht h.listed, h.idle_hoistAppendices ht,
      h.idle_attachCalloutLists ht, h.idle_wrapHeaderCells ht⟩
  obtain ⟨n₁₀, u, f, hrun₁₀, hu, hc⟩ := h.exists_flattened ht
  have h' := h.copied hc ht hu
  have hrun₁₃ : (runAll (bookRules.drop 10)).run u = .ok 0 u := by
    refine runAll_of_idle ?_
    simp only [bookRules, List.drop_succ_cons, List.drop_zero, List.forall_mem_cons,
      List.not_mem_nil, false_imp_iff, implies_true, and_true]
    exact ⟨idle_wrapBlockquotes hu fun _ _ => h'.tag?_parentOf_quotation hu,
      h'.idle_labelCrossReferences hu, h'.idle_columnSpecs hu⟩
  have hrules : bookRules = bookRules.take 9 ++ flattenAttributions :: bookRules.drop 10 := rfl
  refine ⟨0 + (n₁₀ + 0), u, f, ?_, hu, hc⟩
  rw [hrules, runAll_append, hrun₉]
  simp only [runAll_cons_of_ok hrun₁₀, hrun₁₃]

end Rested

end Rule

end BookMarkup
