import BookMarkup.Proofs.Rule.FormalListing
import BookMarkup.Proofs.Rule.InformalListing

/-!
Code blocks after both rules for listings. Every block that is not the root is in an element that
holds listings then. Its name tells the two rules apart: they both give the new one, but neither
touches a block that has such an element around it when the second rule comes.
-/

namespace BookMarkup.Rule

open BookMarkup.Tree

/-- The node is directly in an element that holds listings, or in a formal paragraph that becomes one
because of a block with a title. -/
def Sheltered (t : Tree) (i : NodeId) : Prop :=
  ∃ p, t.parentOf i = some p ∧ (isListingWrapper (t.tag? p) = true ∨ ∃ b, Titled t b p)

theorem IsCode.of_eq {t t' : Tree} {i : NodeId} (h : IsCode t i) (ht : t'.tag? i = t.tag? i) :
    IsCode t' i := by
  obtain ⟨tag, hi, hm⟩ := h
  exact ⟨tag, ht.trans hi, hm⟩

theorem not_isCode_of_tag? {t : Tree} {i : NodeId} {tag : String} (ht : t.tag? i = some tag)
    (hn : tag ∉ ["screen", "programlisting"]) : ¬ IsCode t i :=
  fun h => h.ne_of_tag? ht hn rfl

section Titled

variable {t : Tree} {b f : NodeId}

theorem Titled.live (h : Titled t b f) (hf : t.Live f) : t.Live b := by
  obtain ⟨_, p, hp, _, hpf, _⟩ := h
  exact (hf.child hpf).child hp

/-- A block with a title is in a paragraph, which holds no listing and is not formal. -/
theorem Titled.not_sheltered (h : Titled t b f) : ¬ Sheltered t b := by
  obtain ⟨_, p, hp, hpara, _⟩ := h
  rintro ⟨q, hq, hor⟩
  obtain rfl : p = q := Option.some.inj (hp.symm.trans hq)
  rcases hor with hw | ⟨_, _, _, _, _, _, hformal⟩
  · simp [isListingWrapper, hpara] at hw
  · simp [hpara] at hformal

end Titled

/-- What becomes of the label `n` of the node `i` in `t` by the two rules, which leave `t'`. -/
inductive ListedLabel (t t' : Tree) (i : NodeId) (n : Node) : Node → Prop
  | taken {f : NodeId} (h : Titled t i f) (hp : t'.parentOf i = some f) :
      ListedLabel t t' i n (named "programlisting" n)
  | wrapped {w : NodeId} (hc : IsCode t i) (hw : t'.parentOf i = some w)
      (hnew : t.nodes.size ≤ w) : ListedLabel t t' i n (wrappedLabel n)
  | para {b f : NodeId} (hb : Titled t b f) (h : t.parentOf b = some i) :
      ListedLabel t t' i n (roleless n)
  | formal {b : NodeId} {note : Node → Node} (h : Titled t b i)
      (hnote : note = id ∨ note = annotated) : ListedLabel t t' i n (note (named "example" n))
  | rest (hwrapped : IsCode t i → ∀ w, t'.parentOf i = some w → w < t.nodes.size)
      (hpara : ∀ b f, Titled t b f → t.parentOf b ≠ some i) (hformal : ∀ b, ¬ Titled t b i) :
      ListedLabel t t' i n n

structure Listed (t t' : Tree) : Prop where
  thinned : Thinned t t'
  live : ∀ i, t.Live i → t.tag? i ≠ some "para" → t'.Live i
  code : ∀ i < t.nodes.size, t'.Live i → (IsCode t' i ↔ IsCode t i)
  parentOf : ∀ i < t.nodes.size, t'.Live i → ¬ IsCode t i → t'.parentOf i = t.parentOf i
  new : ∀ i, t.nodes.size ≤ i → i < t'.nodes.size → t'.tag? i = some "informalexample"
  listed : ∀ b p, t'.Live b → IsCode t' b → t'.parentOf b = some p →
    isListingWrapper (t'.tag? p) = true
  screen : ∀ b p, t'.Live b → IsCode t' b → t'.parentOf b = some p →
    (t'.tag? b = some "screen" ↔ t.tag? b = some "screen" ∧ Sheltered t b)
  ungained : Ungained ["annotations"] t t'
  label : ∀ i n, t'.Live i → t.contentOf i = some n →
    ∃ n', t'.contentOf i = some n' ∧ ListedLabel t t' i n n'

section Listed

variable {t u t' : Tree}

theorem FormalListings.isCode_iff (h : FormalListings t u) {i : NodeId} (hl : t.Live i) :
    IsCode u i ↔ IsCode t i := by
  by_cases hi : ∃ f, Titled t i f
  · obtain ⟨f, hf⟩ := hi
    exact iff_of_true ⟨_, h.tag?_block hl hf, by simp⟩ hf.1
  · rcases h.tag? (not_exists.1 hi) with ht | ⟨ht, b, _, _, _, _, _, hformal⟩
    · exact ⟨fun hc => hc.of_eq ht.symm, fun hc => hc.of_eq ht⟩
    · exact iff_of_false (not_isCode_of_tag? ht (by decide))
        (not_isCode_of_tag? hformal (by decide))

theorem FormalListings.same_of_not_titled (h : FormalListings t u) (hthin : Thinned t u)
    {b : NodeId} (hb : b < t.nodes.size) (hl : u.Live b) (hc : IsCode t b)
    (hn : ¬ ∃ f, Titled t b f) : u.tag? b = t.tag? b ∧ u.parentOf b = t.parentOf b := by
  have hlt := hthin.live b hb hl
  refine ⟨?_, h.parentOf b hl (not_exists.1 hn)⟩
  refine (h.tag? (not_exists.1 hn)).resolve_right ?_
  rintro ⟨_, c, _, _, _, _, _, hformal⟩
  exact not_isCode_of_tag? hformal (by decide) hc

/-- The elements that hold listings after the first rule are those that did so before and the formal
paragraphs with a block that has a title. -/
theorem FormalListings.isListingWrapper_iff (h : FormalListings t u) {p : NodeId}
    (hl : t.Live p) : isListingWrapper (u.tag? p) = true ↔
      isListingWrapper (t.tag? p) = true ∨ ∃ b, Titled t b p := by
  constructor
  · intro hw
    by_cases hp : ∃ f, Titled t p f
    · obtain ⟨f, hf⟩ := hp
      simp [isListingWrapper, h.tag?_block hl hf] at hw
    · refine (h.tag? (not_exists.1 hp)).imp (fun ht => ?_) fun ht => ht.2
      rwa [ht] at hw
  · rintro (hw | ⟨b, hb⟩)
    · have hp : ∀ f, ¬ Titled t p f := by
        rintro f ⟨hc, _⟩
        simp [hc.not_listingWrapper] at hw
      rcases h.tag? hp with ht | ⟨ht, _⟩
      · rw [ht, hw]
      · rw [ht]
        rfl
    · rw [h.tag?_formal (hb.live hl) hb]
      rfl

/-- The first rule leaves no block with a title: its own blocks are in examples then, and no others
have got one. -/
theorem FormalListings.not_titled (h : FormalListings t u) (hthin : Thinned t u) {b f : NodeId}
    (hl : u.Live b) : ¬ Titled u b f := by
  rintro ⟨hcode, p, hbp, hpara, hpf, hformal⟩
  have old {i : NodeId} (hl : u.Live i) : t.Live i :=
    hthin.live i (h.size ▸ hthin.proper.lt_of_live hl) hl
  have same {i : NodeId} {tag : String} (hl : u.Live i) (ht : u.tag? i = some tag)
      (hn : tag ≠ "programlisting" ∧ tag ≠ "example") :
      (∀ g, ¬ Titled t i g) ∧ t.tag? i = some tag := by
    have hnot : ∀ g, ¬ Titled t i g := fun g hg => by
      rw [h.tag?_block (old hl) hg, Option.some.injEq] at ht
      exact hn.1 ht.symm
    refine ⟨hnot, (h.tag? hnot).elim (·.symm.trans ht) fun he => ?_⟩
    rw [he.1, Option.some.injEq] at ht
    exact absurd ht.symm hn.2
  have hlp := hl.parent hthin.proper hbp
  obtain ⟨hnp, hpara₀⟩ := same hlp hpara (by decide)
  obtain ⟨_, hformal₀⟩ := same (hlp.parent hthin.proper hpf) hformal (by decide)
  by_cases hb : ∃ g, Titled t b g
  · obtain ⟨g, hg⟩ := hb
    have hgt := h.tag?_formal (old hl) hg
    obtain rfl : p = g := Option.some.inj (hbp.symm.trans (h.moved b g (old hl) hg))
    simp [hpara] at hgt
  · have hbp₀ : t.parentOf b = some p := (h.parentOf b hl (not_exists.1 hb)).symm.trans hbp
    exact hb ⟨f, (h.isCode_iff (old hl)).1 hcode, p, hbp₀, hpara₀,
      (h.parentOf p hlp hnp).symm.trans hpf, hformal₀⟩

theorem InformalListings.isCode_iff (h : InformalListings t u) {i : NodeId}
    (hi : i < t.nodes.size) : IsCode u i ↔ IsCode t i := by
  refine ⟨fun hc => ?_, h.code⟩
  by_contra hn
  exact hn (hc.of_eq (h.tag?_of_not_code hi hn).symm)

theorem InformalListings.isListingWrapper (h : InformalListings t u) (ht : Proper t)
    (hr : Rearranged t u) {b p : NodeId} (hl : u.Live b) (hc : IsCode u b)
    (hp : u.parentOf b = some p) : isListingWrapper (u.tag? p) = true := by
  have hb : b < t.nodes.size := by
    by_contra hle
    exact not_isCode_of_tag? (h.new b (Nat.le_of_not_lt hle) (hr.proper.lt_of_live hl)) (by decide)
      hc
  have hct := (h.isCode_iff hb).1 hc
  obtain ⟨q, hq⟩ := (hr.thinned ht).exists_parentOf hb hl hp
  rcases h.listed b ((hr.live_iff ht hb).1 hl) hct q hq with ⟨hw, hpq⟩ | ⟨_, w, _, hpw, hw⟩
  · obtain rfl : p = q := Option.some.inj (hp.symm.trans hpq)
    have hn : ¬ IsCode t p := fun hc => by simp [hc.not_listingWrapper] at hw
    rw [h.tag?_of_not_code (ht.forest.parent_lt hq) hn, hw]
  · obtain rfl : p = w := Option.some.inj (hp.symm.trans hpw)
    rw [hw]
    rfl

/-- A node that the second rule gives a new label is a block, and its new parent is a new element. -/
theorem InformalListings.wrapped_of_ne (h : InformalListings t u) (ht : Proper t)
    (hr : Rearranged t u) {i : NodeId} (hi : i < t.nodes.size) (hl : u.Live i)
    (hne : u.parentOf i ≠ t.parentOf i) :
    IsCode t i ∧ ∃ w, u.parentOf i = some w ∧ t.nodes.size ≤ w := by
  have hc : IsCode t i := by
    by_contra hn
    exact hne (h.parentOf i hi hn)
  refine ⟨hc, ?_⟩
  cases hq : t.parentOf i with
  | none =>
      obtain ⟨p, hp⟩ := Option.ne_none_iff_exists'.1 (hq ▸ hne)
      obtain ⟨q, hq'⟩ := (hr.thinned ht).exists_parentOf hi hl hp
      simp [hq] at hq'
  | some q =>
      rcases h.listed i ((hr.live_iff ht hi).1 hl) hc q hq with ⟨_, hp⟩ | ⟨_, w, hw, hp, _⟩
      · exact absurd (hp.trans hq.symm) hne
      · exact ⟨w, hp, hw⟩

theorem ListedLabel.of_rules (hthin : Thinned t u) (hf : FormalListings t u)
    (hr : Rearranged u t') (hi : InformalListings u t') {i : NodeId} {n : Node} (hl : t'.Live i)
    (hn : t.contentOf i = some n) : ∃ n', t'.contentOf i = some n' ∧ ListedLabel t t' i n n' := by
  have hit : i < t.nodes.size := contentOf_isSome_iff.1 (by simp [hn])
  have hiu : i < u.nodes.size := hf.size ▸ hit
  have hlu := (hr.live_iff hthin.proper hiu).1 hl
  have hlt := hthin.live i hit hlu
  obtain ⟨n₁, hn₁, hlabel⟩ := hf.label i n hn
  have hlast := hi.label i hiu
  -- Only blocks that the first rule has left alone are wrapped.
  have same (hc : ¬ IsCode t i) : t'.contentOf i = some n₁ := by
    rw [hlast, if_pos (hi.parentOf i hiu (mt (hf.isCode_iff hlt).1 hc)), hn₁]
  cases hlabel with
  | block h =>
      obtain ⟨_, f, hif⟩ := h
      have hw : isListingWrapper (u.tag? f) = true := by
        rw [hf.tag?_formal hlt hif]
        rfl
      have hp := hf.moved i f hlt hif
      rcases hi.listed i hlu ((hf.isCode_iff hlt).2 hif.1) f hp with ⟨_, hsame⟩ | ⟨hn, _⟩
      · exact ⟨_, by rw [hlast, if_pos (hsame.trans hp.symm), hn₁], .taken hif hsame⟩
      · simp [hw] at hn
  | para hb h =>
      obtain ⟨_, f, hbf⟩ := hb
      exact ⟨_, same (not_isCode_of_tag? (hbf.para h).1 (by decide)), .para hbf h⟩
  | formal hb h hnote =>
      exact ⟨_, same (not_isCode_of_tag? h.formalpara (by decide)), .formal h hnote⟩
  | rest hblock hpara hformal =>
      by_cases hp : t'.parentOf i = u.parentOf i
      · refine ⟨n, by rw [hlast, if_pos hp, hn₁], .rest (fun _ w hw => ?_) (fun b f hbf hb => ?_)
          fun b hb => hformal b ⟨hb.live hlt, i, hb⟩ hb⟩
        · exact hf.size ▸ hthin.proper.forest.parent_lt (hp ▸ hw)
        · exact hpara b ⟨hlt.child hb, f, hbf⟩ hb
      · obtain ⟨hc, w, hw, hnew⟩ := hi.wrapped_of_ne hthin.proper hr hiu hl hp
        exact ⟨_, by rw [hlast, if_neg hp, hn₁, Option.map_some],
          .wrapped ((hf.isCode_iff hlt).1 hc) hw (hf.size ▸ hnew)⟩

theorem Listed.of_rules (ht : Proper t) (hthin : Thinned t u)
    (hlive : ∀ i, u.Live i ↔ t.Live i ∧ ¬ Emptied t (IsCode t) i) (hf : FormalListings t u)
    (hr : Rearranged u t') (hi : InformalListings u t') : Listed t t' := by
  have hu := hthin.proper
  have hsize := hf.size
  have hliveu {i : NodeId} (h : i < t.nodes.size) : t'.Live i ↔ u.Live i :=
    hr.live_iff hu (hsize ▸ h)
  have hlivet {i : NodeId} (h : i < t.nodes.size) (hl : t'.Live i) : t.Live i :=
    hthin.live i h ((hliveu h).1 hl)
  have hcodeu {i : NodeId} (h : i < t.nodes.size) : IsCode t' i ↔ IsCode u i :=
    hi.isCode_iff (hsize ▸ h)
  have hcode {i : NodeId} (h : i < t.nodes.size) (hl : t'.Live i) : IsCode t' i ↔ IsCode t i :=
    (hcodeu h).trans (hf.isCode_iff (hlivet h hl))
  have hnew (i : NodeId) (h : t.nodes.size ≤ i) (hlt : i < t'.nodes.size) :
      t'.tag? i = some "informalexample" := hi.new i (hsize ▸ h) hlt
  have hold {b : NodeId} (hl : t'.Live b) (hc : IsCode t' b) : b < t.nodes.size := by
    by_contra hle
    exact not_isCode_of_tag? (hnew b (Nat.le_of_not_lt hle) (hr.proper.lt_of_live hl)) (by decide)
      hc
  refine ⟨hthin.trans (hr.thinned hu), fun i hl hn => ?_, fun i h hl => hcode h hl,
    fun i h hl hc => ?_, hnew, fun b p => hi.isListingWrapper hu hr, fun b p hl hc hp => ?_,
    hf.ungained.trans hthin.kept hi.ungained,
    fun i n hl hn => ListedLabel.of_rules hthin hf hr hi hl hn⟩
  · have hlt := ht.lt_of_live hl
    exact (hliveu hlt).2 ((hlive i).2 ⟨hl, fun he => hn he.1.1⟩)
  · have hcu : ¬ IsCode u i := mt (hf.isCode_iff (hlivet h hl)).1 hc
    rw [hi.parentOf i (hsize ▸ h) hcu,
      hf.parentOf i ((hliveu h).1 hl) fun f hf => hc hf.1]
  · have hb := hold hl hc
    have hlu := (hliveu hb).1 hl
    obtain ⟨q, hq⟩ := (hr.thinned hu).exists_parentOf (hsize ▸ hb) hl hp
    have hcu := (hcodeu hb).1 hc
    have hct := (hcode hb hl).1 hc
    by_cases htitled : ∃ f, Titled t b f
    · -- The first rule has named the block, and the second one does not name it back.
      obtain ⟨f, hbf⟩ := htitled
      have hname : t'.tag? b = some "programlisting" := by
        rw [hi.tag?_eq (hf.tag?_block (hlivet hb hl) hbf), ite_self]
      refine iff_of_false (by simp [hname]) fun hs => hbf.not_sheltered hs.2
    · obtain ⟨hsame, hpar⟩ := hf.same_of_not_titled hthin hb hlu hct htitled
      have hqt : t.parentOf b = some q := hpar.symm.trans hq
      have hwrapper := hf.isListingWrapper_iff ((hlivet hb hl).parent ht hqt)
      have hshelter : Sheltered t b ↔ isListingWrapper (u.tag? q) = true := by
        rw [hwrapper, Sheltered, hqt]
        simp
      rw [← hsame, hshelter]
      obtain ⟨tag, htag, _⟩ := hcu
      rw [hi.tag?_eq htag, htag]
      rcases hi.listed b hlu ⟨tag, htag, ‹_›⟩ q hq with ⟨hw, hpq⟩ | ⟨hw, w, hnewer, hbw, _⟩
      · rw [if_pos (hpq.trans hq.symm)]
        exact (and_iff_left hw).symm
      · have hne : t'.parentOf b ≠ u.parentOf b := by
          rw [hbw, hq, ne_eq, Option.some.injEq]
          rintro rfl
          exact Nat.lt_irrefl _ (Nat.lt_of_lt_of_le (hu.forest.parent_lt hq) hnewer)
        rw [if_neg hne, hw]
        simp

end Listed

end BookMarkup.Rule
