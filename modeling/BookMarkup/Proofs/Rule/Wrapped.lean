import BookMarkup.Proofs.Rule.Conservation
import BookMarkup.Proofs.Rule.Stages

/-!
Code blocks at the end of a run. Each of them is in an element for listings, where the rules for
listings have put it; but a screen that was in such an element before them has kept its name.
-/

namespace BookMarkup.Rule

open BookMarkup.Tree

/-! ### Before the rules for listings -/

section Sheltered

variable {t t₁ t₃ t₄ : Tree}

theorem Opened.tag?_iff (h : Opened t₁ t₃) (hk : Kept [] touchedNames t₁ t₃) {i : NodeId}
    {tag : String} (hn : tag ≠ "partintro") : t₃.tag? i = some tag ↔ t₁.tag? i = some tag := by
  by_cases hi : i < t₁.nodes.size
  · rw [hk.tag?_eq hi]
  · refine iff_of_false (fun ht => hn ?_) fun ht => hi (lt_size_of_tag? ht)
    rw [h.new i (Nat.le_of_not_lt hi) (lt_size_of_tag? ht), Option.some.injEq] at ht
    exact ht.symm

theorem Opened.titled_iff (h : Opened t₁ t₃) (ho : Opening t t₁ t₃) {b f : NodeId}
    (hf : t₃.Live f) : Titled t₃ b f ↔ Titled t₁ b f := by
  have hcode : IsCode t₃ b ↔ IsCode t₁ b := by
    refine exists_congr fun tag => and_congr_left fun hm => h.tag?_iff ho.kept ?_
    rintro rfl
    simp at hm
  constructor
  · rintro ⟨hc, p, hbp, hp, hpf, hft⟩
    have hpl : t₃.Live p := hf.child hpf
    have hft₁ := (h.tag?_iff ho.kept (by decide)).1 hft
    have hp₁ := (h.tag?_iff ho.kept (by decide)).1 hp
    exact ⟨hcode.1 hc, p, (ho.parentOf_iff hp₁ hpl (by decide) b).1 hbp, hp₁,
      (ho.parentOf_iff hft₁ hf (by decide) p).1 hpf, hft₁⟩
  · rintro ⟨hc, p, hbp, hp, hpf, hft⟩
    have hpf₃ := (ho.parentOf_iff hft hf (by decide) p).2 hpf
    have hpl : t₃.Live p := hf.child hpf₃
    exact ⟨hcode.2 hc, p, (ho.parentOf_iff hp hpl (by decide) b).2 hbp,
      (h.tag?_iff ho.kept (by decide)).2 hp, hpf₃, (h.tag?_iff ho.kept (by decide)).2 hft⟩

theorem isListingWrapper_iff {t : Tree} {p : NodeId} : isListingWrapper (t.tag? p) = true ↔
    t.tag? p = some "example" ∨ t.tag? p = some "informalexample" := by
  simp [isListingWrapper]

/-- What holds a block like this is pruned of nothing and no part. -/
theorem exists_tag?_of_shelter {t : Tree} {p : NodeId}
    (h : isListingWrapper (t.tag? p) = true ∨ ∃ b, Titled t b p) :
    ∃ tag, t.tag? p = some tag ∧ tag ∉ ["bookinfo", "mediaobject", "part", "partintro"] := by
  rcases h with hw | ⟨b, _, _, _, _, _, hformal⟩
  · rcases isListingWrapper_iff.1 hw with ht | ht
    · exact ⟨_, ht, by decide⟩
    · exact ⟨_, ht, by decide⟩
  · exact ⟨_, hformal, by decide⟩

/-- The rules for metadata and introductions leave what is around a code block. -/
theorem Opened.sheltered_iff (h : Opened t₁ t₃) (ho : Opening t t₁ t₃) {b : NodeId}
    (hl : t₃.Live b) (hb : b < t₁.nodes.size) : Sheltered t₃ b ↔ Sheltered t₁ b := by
  have hwrapper (p : NodeId) :
      isListingWrapper (t₃.tag? p) = true ↔ isListingWrapper (t₁.tag? p) = true := by
    rw [isListingWrapper_iff, isListingWrapper_iff, h.tag?_iff ho.kept (by decide),
      h.tag?_iff ho.kept (by decide)]
  constructor
  · rintro ⟨p, hbp, hor⟩
    have hpl := hl.parent ho.thinned.proper hbp
    have hor₁ := hor.imp (hwrapper p).1 (Exists.imp fun _ => (h.titled_iff ho hpl).1)
    obtain ⟨tag, ht, hn⟩ := exists_tag?_of_shelter hor₁
    exact ⟨p, (ho.parentOf_iff ht hpl hn b).1 hbp, hor₁⟩
  · rintro ⟨p, hbp, hor⟩
    have hpl := ho.live_parent hl hb hbp
    obtain ⟨tag, ht, hn⟩ := exists_tag?_of_shelter hor
    exact ⟨p, (ho.parentOf_iff ht hpl hn b).2 hbp,
      hor.imp (hwrapper p).2 (Exists.imp fun _ => (h.titled_iff ho hpl).2)⟩

theorem Relabelled.sheltered_iff (h : Relabelled t₃ t₄) (hk : Kept [] touchedNames t₃ t₄)
    {b : NodeId} : Sheltered t₄ b ↔ Sheltered t₃ b := by
  simp only [Sheltered, Titled, IsCode, h.tag?_eq hk, h.parentOf]

end Sheltered

/-! ### After the rules for listings -/

section CodeBlocks

variable {t t' : Tree} (s : Stages t t')

include s

theorem Stages.lt_of_isCode {b : NodeId} (hc : IsCode t' b) : b < s.renamed.nodes.size := by
  obtain ⟨tag, ht, hm⟩ := hc
  refine Nat.lt_of_not_le fun hle => ?_
  have hmade := s.thinned_renamed.made b tag hle ht
  simp only [madeTags, List.mem_cons, List.not_mem_nil, or_false] at hm hmade
  rcases hm with rfl | rfl <;> simp at hmade

/-- A code block is in the end where the rules for listings have put it, since this is no cell. -/
theorem Stages.parentOf_of_listed {b q : NodeId} (hl : t'.Live b) (hc : IsCode t' b)
    (hq : s.listed.parentOf b = some q) :
    t'.parentOf b = some q ∧ isListingWrapper (t'.tag? q) = true := by
  have hb : b < s.listed.nodes.size := lt_size_of_parentOf hq
  have hcl : IsCode s.listed b := hc.of_eq (s.movesOnly_listed.tag?_eq hb).symm
  have hw := s.list.listed b q (s.movesOnly_listed.thinned.live b hb hl) hcl hq
  have hqs := s.list.thinned.proper.forest.parent_lt hq
  have hother : ∀ tag ∈ ["appendix", "calloutlist", "blockquote"],
      tag ∉ ["screen", "programlisting"] := by decide
  refine ⟨?_, (s.movesOnly_listed.tag?_eq hqs).symm ▸ hw⟩
  refine (s.parentOf_listed hb hl fun tag hm ht => ?_).elim (·.trans hq) ?_
  · exact not_isCode_of_tag? ht (hother tag hm) hcl
  · rintro ⟨⟨e, he, het⟩, _⟩
    obtain rfl : q = e := Option.some.inj (hq.symm.trans he)
    simp [isListingWrapper, het] at hw

theorem Stages.parentOf_code {b p : NodeId} (hl : t'.Live b) (hc : IsCode t' b)
    (hp : t'.parentOf b = some p) : s.listed.Live b ∧ s.listed.tag? b = t'.tag? b ∧
      s.listed.parentOf b = some p ∧ isListingWrapper (t'.tag? p) = true := by
  have hb : b < s.listed.nodes.size := s.list.thinned.kept.lt
    (s.format.relabelled.size ▸ s.opening.thinned.kept.lt (s.lt_of_isCode hc))
  obtain ⟨q, hq⟩ := s.movesOnly_listed.thinned.exists_parentOf hb hl hp
  obtain ⟨hbq, hw⟩ := s.parentOf_of_listed hl hc hq
  obtain rfl : p = q := Option.some.inj (hp.symm.trans hbq)
  exact ⟨s.movesOnly_listed.thinned.live b hb hl, (s.movesOnly_listed.tag?_eq hb).symm, hq, hw⟩

/-- A code block keeps the name of a screen only if it was in an element for listings before. -/
theorem Stages.tag?_code {b p : NodeId} (hl : t'.Live b) (hc : IsCode t' b)
    (hp : t'.parentOf b = some p) : t'.tag? b = some "screen" ↔
      s.renamed.tag? b = some "screen" ∧ Sheltered s.renamed b := by
  have hb := s.lt_of_isCode hc
  have hlo := s.thinned_opened.live b (s.opening.thinned.kept.lt hb) hl
  obtain ⟨hll, htag, hpl, _⟩ := s.parentOf_code hl hc hp
  rw [← htag, s.list.screen b p hll (hc.of_eq htag) hpl, s.format.relabelled.tag?_eq s.format.kept,
    s.opening.kept.tag?_eq hb, s.format.relabelled.sheltered_iff s.format.kept,
    s.open'.sheltered_iff s.opening hlo hb]

end CodeBlocks

/-! ### The whole run -/

/-- After a run that succeeds on a document that has been read, every code block but the root is in an
element for listings. It has the name of a listing, unless it was a screen and the element around it
was there before the rules for listings came, which then leave its name as it is. What was there
before is told on the tree `t₁` that the first rule leaves, which has the same links and new tags. -/
theorem wrapped_of_run_bookRules {o : Reader.Options} {text : String} {d : Document} {n : Nat}
    {t' : Tree} (h : Document.parse o text = .ok d)
    (hrun : (runAll bookRules).run d.tree = .ok n t') :
    ∃ n₁ t₁, (runAll (bookRules.take 1)).run d.tree = .ok n₁ t₁ ∧
      (∀ i, t₁.parentOf i = d.tree.parentOf i) ∧
      (∀ i, d.tree.Live i → t₁.tag? i = (d.tree.tag? i).map bookTag) ∧
      ∀ b ∈ t'.live.map Node.id, t'.root ≠ some b → IsCode t' b →
        (∃ w, t'.parentOf b = some w ∧
          (t'.tag? w = some "example" ∨ t'.tag? w = some "informalexample")) ∧
        (t'.tag? b = some "programlisting" ↔
          ¬ (t₁.tag? b = some "screen" ∧ Sheltered t₁ b)) := by
  obtain ⟨n₁, s, hrun₁⟩ := exists_stages (Document.proper_of_parse h) hrun
  refine ⟨n₁, s.renamed, hrun₁, s.opening.relabelled.parentOf, fun i hl => s.opening.tag?_eq hl,
    fun b hb hr hc => ?_⟩
  have hl : t'.Live b := s.movesOnly_listed.thinned.proper.forest.mem_map_live.1 hb
  obtain ⟨w, hw, _⟩ := hl.exists_parent hr
  obtain ⟨_, _, _, hwt⟩ := s.parentOf_code hl hc hw
  refine ⟨⟨w, hw, isListingWrapper_iff.1 hwt⟩, ?_⟩
  rw [← s.tag?_code hl hc hw]
  obtain ⟨tag, ht, hm⟩ := hc
  simp only [List.mem_cons, List.not_mem_nil, or_false] at hm
  rcases hm with rfl | rfl <;> simp [ht]

/-- The tree that a run of all rules leaves of a text, if it can be read and no rule fails. -/
def rewritten? (text : String) : Option Tree :=
  match Document.parse {} text with
  | .error _ => none
  | .ok d =>
    match (runAll bookRules).run d.tree with
    | .error _ _ => none
    | .ok _ t' => some t'

theorem exists_run_of_rewritten? (text : String) {P : Tree → Prop} [DecidablePred P]
    (h : (rewritten? text).any (decide <| P ·) = true) :
    ∃ d n t', Document.parse {} text = .ok d ∧ (runAll bookRules).run d.tree = .ok n t' ∧ P t' := by
  obtain ⟨t', ht, hp⟩ := (Option.any_eq_true _ _).1 h
  rw [rewritten?] at ht
  split at ht
  · simp at ht
  · next d hd =>
    split at ht
    · simp at ht
    · next n u hn =>
      rw [Option.some.injEq] at ht
      exact ⟨d, n, t', hd, ht ▸ hn, of_decide_eq_true hp⟩

/-- A screen goes into an example. -/
theorem wrapped_of_lone_screen : ∃ d n t', Document.parse {} "<a><screen>x</screen></a>" = .ok d ∧
    (runAll bookRules).run d.tree = .ok n t' ∧
    ∃ w, t'.parentOf 1 = some w ∧
      (t'.tag? w = some "example" ∨ t'.tag? w = some "informalexample") := by
  obtain ⟨d, n, t', hparse, hrun, hl, hr, hc⟩ := exists_run_of_rewritten?
    "<a><screen>x</screen></a>"
    (P := fun t => 1 ∈ t.live.map Node.id ∧ t.root ≠ some 1 ∧ t.tag? 1 = some "programlisting")
    (by decide +kernel)
  obtain ⟨_, _, _, _, _, hwrapped⟩ := wrapped_of_run_bookRules hparse hrun
  exact ⟨d, n, t', hparse, hrun, (hwrapped 1 hl hr ⟨_, hc, by simp⟩).1⟩

/-- A screen in an example of the author keeps its name. -/
theorem screen_of_authored_example : ∃ d n t',
    Document.parse {} "<book><example><screen>x</screen></example></book>" = .ok d ∧
    (runAll bookRules).run d.tree = .ok n t' ∧ 2 ∈ t'.live.map Node.id ∧ t'.root ≠ some 2 ∧
    t'.tag? 2 = some "screen" :=
  exists_run_of_rewritten? _ (by decide +kernel)

end BookMarkup.Rule
