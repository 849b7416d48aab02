import BookMarkup.Proofs.Rule.Part
import BookMarkup.Proofs.Rule.Pruned

/-!
What the rules for metadata and introductions bring about together: nothing unwanted is left, the
attributes that books do not have are gone, and no part has loose content. All other nodes that are
left are where they were.
-/

namespace BookMarkup.Rule

open BookMarkup.Tree

/-- Below a live element that has nothing unwanted, nothing is pruned. -/
theorem Pruned.parentOf_iff {t t' : Tree} (h : Pruned t t')
    (hlive : ∀ i, t'.Live i ↔ t.Live i ∧ ¬ Inside t (Unwanted t) i) {p : NodeId} (hp : t'.Live p)
    (hn : ∀ tag ∈ ["bookinfo", "mediaobject"], t.tag? p ≠ some tag) (c : NodeId) :
    t'.parentOf c = some p ↔ t.parentOf c = some p := by
  constructor
  · intro hc
    rw [← h.parentOf c (hp.child hc), hc]
  · intro hc
    refine (h.parentOf_child_iff hlive hp hc).2 ?_
    rintro ⟨tag, ha, q, hq, outer, ho, hor⟩
    obtain rfl := Option.some.inj (hc.symm.trans hq)
    rcases hor with ⟨rfl, _⟩ | ⟨rfl, _⟩
    · exact hn _ (by simp) ho
    · exact hn _ (by simp) ho

/-- What the selectors accept has lost its attributes for good, as long as no element gets into their
reach and none gains an attribute of theirs. -/
theorem Stripped.later {pairs : List (String × List String)} {names : List String} {t t' : Tree}
    (h : Stripped pairs t) (hu : Ungained names t t')
    (hnames : ∀ p ∈ pairs, ∀ name ∈ p.2, name ∉ names)
    (hpairs : ∀ p ∈ pairs, ∀ s, Selector.parse p.1 = .ok s → ∀ i, t'.Live i →
      s.accepts t' i = true → i < t.nodes.size ∧ t.Live i ∧ s.accepts t i = true) :
    Stripped pairs t' := by
  intro p hp s hs i hl ha name hname
  obtain ⟨hi, hl, ha⟩ := hpairs p hp s hs i hl ha
  exact hu i hi name (hnames p hp name hname) (h p hp s hs i hl ha name hname)

/-- What the rules for metadata and introductions have brought about in `t₃`, and where they have left
the nodes of `t₁`. -/
structure Opened (t₁ t₃ : Tree) : Prop where
  parentOf : ∀ i < t₁.nodes.size, t₃.Live i → isIntroContent (t₁.tag? i) = false →
    t₃.parentOf i = t₁.parentOf i
  below : ∀ p < t₁.nodes.size, t₃.Live p →
    (∀ tag ∈ ["bookinfo", "mediaobject"], t₁.tag? p ≠ some tag) →
    ∀ c, t₁.parentOf c = some p → isIntroContent (t₁.tag? c) = false → t₃.parentOf c = some p
  new : ∀ i, t₁.nodes.size ≤ i → i < t₃.nodes.size → t₃.tag? i = some "partintro"
  wanted : ∀ i, t₃.Live i → ¬ Unwanted t₃ i
  stripped : Stripped prunedAttributes t₃
  tidied : Tidied t₃
  introduced : ∀ p, t₃.Live p → t₃.tag? p = some "part" → HasIntro t₃ p

section Opened

variable {t₁ u t₂ t₃ : Tree}

theorem Opened.of_stretch (hp : Pruned t₁ u)
    (hlive : ∀ i, u.Live i ↔ t₁.Live i ∧ ¬ Inside t₁ (Unwanted t₁) i) (hr₂ : Relabelled u t₂)
    (hk₂ : Kept [] touchedNames u t₂) (hst : Stripped prunedAttributes t₂)
    (hr₃ : Rearranged t₂ t₃) (hc₃ : MovesOnly (fun i => isIntroContent (t₂.tag? i) = true) t₂ t₃)
    (htidy : Tidied t₃) (hintro : ∀ p, t₃.Live p → t₃.tag? p = some "part" → HasIntro t₃ p)
    (hnew : ∀ i, t₂.nodes.size ≤ i → i < t₃.nodes.size → t₃.tag? i = some "partintro") :
    Opened t₁ t₃ := by
  have hsize : t₂.nodes.size = t₁.nodes.size := hr₂.size.trans hp.size
  have htag₂ (i : NodeId) : t₂.tag? i = t₁.tag? i := (hr₂.tag?_eq hk₂ i).trans (hp.tag?_eq i)
  have htag₃ {i : NodeId} (hi : i < t₁.nodes.size) : t₃.tag? i = t₁.tag? i :=
    (hc₃.tag?_eq (hsize ▸ hi)).trans (htag₂ i)
  have hlive₃ {i : NodeId} (hi : i < t₁.nodes.size) : t₃.Live i ↔ u.Live i :=
    (hr₃.live_iff hr₂.proper (hsize ▸ hi)).trans hr₂.live_iff
  have hold {i : NodeId} {tag : String} (ht : t₃.tag? i = some tag) (hne : tag ≠ "partintro") :
      i < t₁.nodes.size := by
    by_contra hle
    rw [hnew i (hsize ▸ Nat.le_of_not_lt hle) (lt_size_of_tag? ht), Option.some.injEq] at ht
    exact hne ht.symm
  have hpar : ∀ i < t₁.nodes.size, t₃.Live i → isIntroContent (t₁.tag? i) = false →
      t₃.parentOf i = t₁.parentOf i := by
    intro i hi hl hm
    rw [hc₃.parentOf i (hsize ▸ hi) hl (by simp [htag₂, hm]), hr₂.parentOf,
      hp.parentOf i ((hlive₃ hi).1 hl)]
  refine ⟨hpar, fun p hps hl hn c hc hm => ?_, fun i hi => hnew i (hsize.symm ▸ hi),
    fun i hl hun => ?_, ?_, htidy, hintro⟩
  · have hcu := (hp.parentOf_iff hlive ((hlive₃ hps).1 hl) hn c).2 hc
    have hcs := lt_size_of_parentOf hc
    have hcl : u.Live c := ((hlive₃ hps).1 hl).child hcu
    rw [hpar c hcs ((hlive₃ hcs).2 hcl) hm, hc]
  · obtain ⟨tag, ht, p, hp', outer, ho, hor⟩ := hun
    have htags : tag ≠ "partintro" ∧ isIntroContent (some tag) = false ∧ outer ≠ "partintro" := by
      rcases hor with ⟨rfl, rfl | rfl⟩ | ⟨rfl, rfl⟩ <;> decide
    have hi := hold ht htags.1
    have ht₁ : t₁.tag? i = some tag := (htag₃ hi).symm.trans ht
    rw [hpar i hi hl (ht₁ ▸ htags.2.1)] at hp'
    have hp₁ : t₁.tag? p = some outer := (htag₃ (hold ho htags.2.2)).symm.trans ho
    exact ((hlive i).1 ((hlive₃ hi).1 hl)).2
      ⟨i, ⟨tag, ht₁, p, hp', outer, hp₁, hor⟩, .refl i⟩
  · refine hst.later (hc₃.ungained []) (by simp) fun p hp s hs i hl ha => ?_
    obtain ⟨tags, hs', hmade, _⟩ := parse_prunedAttributes p hp
    obtain rfl : Selector.mk [tags] = s := Except.ok.inj (hs'.symm.trans hs)
    rw [Selector.accepts_one_iff] at ha ⊢
    obtain ⟨tag, ht, hm⟩ := ha
    have hi : i < t₂.nodes.size := hsize ▸ hold ht fun he => hmade tag hm (he ▸ by decide)
    exact ⟨hi, hc₃.thinned.live i hi hl, tag, (hc₃.tag?_eq hi).symm.trans ht, hm⟩

end Opened

end BookMarkup.Rule
