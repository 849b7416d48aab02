import BookMarkup.Proofs.Document.Reading
import BookMarkup.Proofs.Rule.Promoting

/-!
What the rule for formal listings makes of a tree, told for all blocks at once: what becomes of a
label or a list of children is read off the old tree. With all blocks taken, the blocks that a
paragraph has lost are its code blocks, since the loop selects all of them before it begins.
-/

namespace BookMarkup.Rule

open BookMarkup.Tree

def isTitled (t : Tree) (b : NodeId) : Bool :=
  isCode t b && (t.parentOf b).any fun p =>
    t.tag? p == some "para" && (t.parentOf p).any fun f => t.tag? f == some "formalpara"

def titledBlocks (t : Tree) : List NodeId :=
  (t.live.map Node.id).filter (isTitled t)

def holdsBlock (t : Tree) (p : NodeId) : Bool :=
  t.tag? p == some "para" && (t.childrenOf p).any (isCode t)

def isFormalListing (t : Tree) (f : NodeId) : Bool :=
  t.tag? f == some "formalpara" && (t.childrenOf f).any (holdsBlock t)

def isTitledPara (t : Tree) (p : NodeId) : Bool :=
  holdsBlock t p && (t.parentOf p).any fun f => t.tag? f == some "formalpara"

/-- What a child of a formal listing becomes: the blocks of a paragraph, and then the paragraph if it
holds anything else. Other children stay as they are. -/
def unpacked (t : Tree) (c : NodeId) : List NodeId :=
  if holdsBlock t c then
    (t.childrenOf c).filter (isCode t) ++ if (t.childrenOf c).all (isCode t) then [] else [c]
  else [c]

def promotedChildren (t : Tree) (i : NodeId) : List NodeId :=
  if isFormalListing t i then (t.childrenOf i).flatMap (unpacked t)
  else if isTitledPara t i then (t.childrenOf i).filter fun c => !isCode t c
  else t.childrenOf i

def promotedLabel (t : Tree) (i : NodeId) : Node → Node :=
  if isFormalListing t i then
    noteIf ((t.childrenOf i).any fun p => holdsBlock t p && asksNote t p) ∘ named "example"
  else if isTitled t i then named "programlisting"
  else if isTitledPara t i then roleless
  else id

/-- The tree `t'` is `t` with its formal listings promoted to examples. -/
structure Promoted (t t' : Tree) : Prop where
  proper : Proper t'
  root : t'.root = t.root
  size : t'.nodes.size = t.nodes.size
  contentOf : ∀ i, t.Live i → t'.contentOf i = (t.contentOf i).map (promotedLabel t i)
  childrenOf : ∀ i, t.Live i → t'.childrenOf i = promotedChildren t i
  rest : ∀ i, ¬ t.Live i → t'.contentOf i = t.contentOf i ∧ t'.childrenOf i = t.childrenOf i

theorem isTitled_iff {t : Tree} {b : NodeId} : isTitled t b = true ↔ ∃ f, Titled t b f := by
  simp only [isTitled, Bool.and_eq_true, isCode_iff, Option.any_eq_true, beq_iff_eq, Titled]
  constructor
  · rintro ⟨hcode, p, hp, hpara, f, hf, hformal⟩
    exact ⟨f, hcode, p, hp, hpara, hf, hformal⟩
  · rintro ⟨f, hcode, p, hp, hpara, hf, hformal⟩
    exact ⟨hcode, p, hp, hpara, f, hf, hformal⟩

theorem holdsBlock_iff {t : Tree} {p : NodeId} :
    holdsBlock t p = true ↔ t.tag? p = some "para" ∧ ∃ b ∈ t.childrenOf p, IsCode t b := by
  simp only [holdsBlock, Bool.and_eq_true, beq_iff_eq, List.any_eq_true, isCode_iff]

theorem isFormalListing_iff {t : Tree} {f : NodeId} : isFormalListing t f = true ↔
    t.tag? f = some "formalpara" ∧ ∃ p ∈ t.childrenOf f, holdsBlock t p = true := by
  simp only [isFormalListing, Bool.and_eq_true, beq_iff_eq, List.any_eq_true]

theorem isTitledPara_iff {t : Tree} {p : NodeId} : isTitledPara t p = true ↔
    holdsBlock t p = true ∧ ∃ f, t.parentOf p = some f ∧ t.tag? f = some "formalpara" := by
  simp only [isTitledPara, Bool.and_eq_true, beq_iff_eq, Option.any_eq_true]

section All

variable {t u : Tree} {taken : List NodeId} {i p c : NodeId}

variable (ht : Proper t) (hmem : ∀ b, b ∈ taken ↔ t.Live b ∧ ∃ f, Titled t b f)

include ht hmem

theorem exists_formalOf_iff (hi : t.Live i) :
    (∃ b ∈ taken, formalOf t b = some i) ↔ isFormalListing t i = true := by
  rw [isFormalListing_iff]
  constructor
  · rintro ⟨b, hb, hbi⟩
    obtain ⟨-, f, hf⟩ := (hmem b).1 hb
    rw [hf.formalOf_eq, Option.some.injEq] at hbi
    subst hbi
    obtain ⟨hcode, p, hp, hpara, hpf, hformal⟩ := hf
    exact ⟨hformal, p, ht.forest.mem_childrenOf.2 hpf,
      holdsBlock_iff.2 ⟨hpara, b, ht.forest.mem_childrenOf.2 hp, hcode⟩⟩
  · rintro ⟨hformal, p, hp, hholds⟩
    obtain ⟨hpara, b, hb, hcode⟩ := holdsBlock_iff.1 hholds
    rw [ht.forest.mem_childrenOf] at hp hb
    have htitled : Titled t b i := ⟨hcode, p, hb, hpara, hp, hformal⟩
    exact ⟨b, (hmem b).2 ⟨(hi.child hp).child hb, i, htitled⟩, htitled.formalOf_eq⟩

theorem exists_parentOf_iff (hi : t.Live i) :
    (∃ b ∈ taken, t.parentOf b = some i) ↔ isTitledPara t i = true := by
  rw [isTitledPara_iff, holdsBlock_iff]
  constructor
  · rintro ⟨b, hb, hbi⟩
    obtain ⟨-, f, hf⟩ := (hmem b).1 hb
    obtain ⟨hpara, hpf⟩ := hf.para hbi
    exact ⟨⟨hpara, b, ht.forest.mem_childrenOf.2 hbi, hf.1⟩, f, hpf, hf.formalpara⟩
  · rintro ⟨⟨hpara, b, hb, hcode⟩, f, hf, hformal⟩
    rw [ht.forest.mem_childrenOf] at hb
    exact ⟨b, (hmem b).2 ⟨hi.child hb, f, hcode, i, hb, hpara, hf, hformal⟩, hb⟩

/-- In a paragraph of a formal paragraph all code blocks are taken. -/
theorem mem_taken_iff {q : NodeId} (hp : t.Live p) (hpara : t.tag? p = some "para")
    (hpq : t.parentOf p = some q) (hq : t.tag? q = some "formalpara") (hc : c ∈ t.childrenOf p) :
    c ∈ taken ↔ isCode t c = true := by
  rw [ht.forest.mem_childrenOf] at hc
  rw [hmem, isCode_iff]
  exact ⟨fun ⟨_, f, hf⟩ => hf.1, fun hcode => ⟨hp.child hc, q, hcode, p, hc, hpara, hpq, hq⟩⟩

theorem relabelBy_all (hi : t.Live i) : relabelBy t taken i = promotedLabel t i := by
  have hformal : (taken.any fun b => formalOf t b == some i) = isFormalListing t i := by
    rw [Bool.eq_iff_iff, ← exists_formalOf_iff ht hmem hi, List.any_eq_true]
    simp only [beq_iff_eq]
  have hpara : (taken.any fun b => t.parentOf b == some i) = isTitledPara t i := by
    rw [Bool.eq_iff_iff, ← exists_parentOf_iff ht hmem hi, List.any_eq_true]
    simp only [beq_iff_eq]
  have hblock : i ∈ taken ↔ isTitled t i = true := by
    rw [hmem, isTitled_iff]
    exact and_iff_right hi
  have hnote (hf : isFormalListing t i = true) :
      (taken.any fun b => formalOf t b == some i && (t.parentOf b).any (asksNote t)) =
        (t.childrenOf i).any fun p => holdsBlock t p && asksNote t p := by
    obtain ⟨hformal, -⟩ := isFormalListing_iff.1 hf
    rw [Bool.eq_iff_iff, List.any_eq_true, List.any_eq_true]
    simp only [Bool.and_eq_true, beq_iff_eq, Option.any_eq_true]
    constructor
    · rintro ⟨b, hb, hbi, p, hp, hasks⟩
      obtain ⟨-, f, htitled⟩ := (hmem b).1 hb
      rw [htitled.formalOf_eq, Option.some.injEq] at hbi
      subst hbi
      obtain ⟨hpara, hpf⟩ := htitled.para hp
      exact ⟨p, ht.forest.mem_childrenOf.2 hpf,
        holdsBlock_iff.2 ⟨hpara, b, ht.forest.mem_childrenOf.2 hp, htitled.1⟩, hasks⟩
    · rintro ⟨p, hp, hholds, hasks⟩
      obtain ⟨hpara, b, hb, hcode⟩ := holdsBlock_iff.1 hholds
      rw [ht.forest.mem_childrenOf] at hp hb
      have htitled : Titled t b i := ⟨hcode, p, hb, hpara, hp, hformal⟩
      exact ⟨b, (hmem b).2 ⟨(hi.child hp).child hb, i, htitled⟩, htitled.formalOf_eq, p, hb, hasks⟩
  rw [relabelBy, promotedLabel, hformal, hpara]
  by_cases hf : isFormalListing t i = true
  · rw [if_pos hf, if_pos hf, hnote hf]
  · rw [if_neg hf, if_neg hf]
    exact if_congr hblock rfl rfl

theorem unpackedBy_all (hi : t.Live i) (hformal : t.tag? i = some "formalpara")
    (hc : t.parentOf c = some i) : unpackedBy t taken c = unpacked t c := by
  have htaken : ∀ b ∈ taken, ∃ f, Titled t b f := fun b hb => ((hmem b).1 hb).2
  by_cases hpara : t.tag? c = some "para"
  · have hiff := fun b hb => mem_taken_iff ht hmem (c := b) (hi.child hc) hpara hc hformal hb
    by_cases hholds : holdsBlock t c = true
    · obtain ⟨-, b, hb, -⟩ := holdsBlock_iff.1 hholds
      have hall : (t.childrenOf c ≠ [] ∧ ∀ b ∈ t.childrenOf c, b ∈ taken) ↔
          (t.childrenOf c).all (isCode t) = true := by
        rw [List.all_eq_true]
        exact (and_iff_right (List.ne_nil_of_mem hb)).trans (forall₂_congr hiff)
      have hblocks : (t.childrenOf c).filter (fun b => b ∈ taken) =
          (t.childrenOf c).filter (isCode t) :=
        List.filter_congr fun b hb => by rw [Bool.eq_iff_iff, decide_eq_true_iff, hiff b hb]
      rw [unpackedBy, unpacked, if_pos hholds, hblocks]
      simp only [hall]
    · rw [unpacked, if_neg hholds]
      refine unpackedBy_of_not_taken fun b hb hm => hholds ?_
      exact holdsBlock_iff.2 ⟨hpara, b, hb, isCode_iff.1 ((hiff b hb).1 hm)⟩
  · have hholds : ¬ holdsBlock t c = true := fun h => hpara (holdsBlock_iff.1 h).1
    rw [unpacked, if_neg hholds]
    exact unpackedBy_of_not_taken fun b hb hm =>
      parentOf_ne_of_not_para htaken hpara hm (ht.forest.mem_childrenOf.1 hb)

theorem childrenBy_all (hi : t.Live i) : childrenBy t taken i = promotedChildren t i := by
  have htaken : ∀ b ∈ taken, ∃ f, Titled t b f := fun b hb => ((hmem b).1 hb).2
  rw [promotedChildren]
  by_cases hf : isFormalListing t i = true
  · have hformal := (isFormalListing_iff.1 hf).1
    rw [if_pos hf, childrenBy_of_formalpara htaken ht hformal]
    exact List.flatMap_congr fun c hc =>
      unpackedBy_all ht hmem hi hformal (ht.forest.mem_childrenOf.1 hc)
  rw [if_neg hf, childrenBy_of_formalOf_ne ht fun b hb hbi =>
    hf ((exists_formalOf_iff ht hmem hi).1 ⟨b, hb, hbi⟩)]
  by_cases hp : isTitledPara t i = true
  · obtain ⟨hholds, f, hf, hformal⟩ := isTitledPara_iff.1 hp
    have hpara := (holdsBlock_iff.1 hholds).1
    rw [if_pos hp]
    refine List.filter_congr fun c hc => ?_
    rw [Bool.eq_iff_iff, decide_eq_true_iff, mem_taken_iff ht hmem hi hpara hf hformal hc,
      Bool.not_eq_true, Bool.not_eq_true']
  · rw [if_neg hp]
    refine List.filter_eq_self.2 fun c hc => decide_eq_true fun hm => hp ?_
    exact (exists_parentOf_iff ht hmem hi).1 ⟨c, hm, ht.forest.mem_childrenOf.1 hc⟩

theorem relabelBy_and_childrenBy_of_not_live (hi : ¬ t.Live i) :
    relabelBy t taken i = id ∧ childrenBy t taken i = t.childrenOf i := by
  have hpara : ∀ b ∈ taken, t.parentOf b ≠ some i := fun b hb hp =>
    hi (((hmem b).1 hb).1.parent ht hp)
  have hformal : ∀ b ∈ taken, formalOf t b ≠ some i := by
    intro b hb hbi
    obtain ⟨p, hp, hpi⟩ := Option.bind_eq_some_iff.1 hbi
    exact hi ((((hmem b).1 hb).1.parent ht hp).parent ht hpi)
  have hblock : i ∉ taken := fun hm => hi ((hmem i).1 hm).1
  refine ⟨?_, ?_⟩
  · have hany : (taken.any fun b => formalOf t b == some i) = false :=
      List.any_eq_false.2 fun b hb => by simpa using hformal b hb
    have hany' : (taken.any fun b => t.parentOf b == some i) = false :=
      List.any_eq_false.2 fun b hb => by simpa using hpara b hb
    rw [relabelBy, hany, if_neg hblock, hany']
    rfl
  · rw [childrenBy_of_formalOf_ne ht hformal]
    exact List.filter_eq_self.2 fun c hc => decide_eq_true fun hm =>
      hpara c hm (ht.forest.mem_childrenOf.1 hc)

theorem Promoting.promoted (hu : Promoting t taken u) : Promoted t u where
  proper := hu.proper
  root := hu.root
  size := hu.size
  contentOf i hi := by rw [hu.contentOf, relabelBy_all ht hmem hi]
  childrenOf i hi := by rw [hu.childrenOf, childrenBy_all ht hmem hi]
  rest i hi := by
    obtain ⟨hlabel, hchild⟩ := relabelBy_and_childrenBy_of_not_live ht hmem hi
    rw [hu.contentOf, hlabel, Option.map_id, hu.childrenOf, hchild]
    exact ⟨rfl, rfl⟩

end All

theorem exists_promoted {t : Tree} (h : Proper t) :
    ∃ t', formalListings.apply.run t = .ok (titledBlocks t).length t' ∧ Promoted t t' := by
  let s := Selector.mk [["formalpara"], ["para"], ["screen", "programlisting"]]
  have hmem (b : NodeId) : b ∈ s.select t ↔ t.Live b ∧ ∃ f, Titled t b f := by
    rw [h.forest.mem_select, accepts_titled_iff]
  have hblocks : titledBlocks t = s.select t := by
    rw [titledBlocks, select_eq_filter]
    refine List.filter_congr fun b _ => ?_
    rw [Bool.eq_iff_iff, isTitled_iff, accepts_titled_iff]
  have hcount : (titledBlocks t).length = ((s.select t).map fun _ => 1).sum := by
    simp [hblocks]
  suffices hrun : ∃ t', formalListings.apply.run t = .ok ((s.select t).map fun _ => 1).sum t' ∧
      Promoting t (s.select t) t' by
    obtain ⟨t', hrun, hu⟩ := hrun
    exact ⟨t', hcount ▸ hrun, hu.promoted h hmem⟩
  refine run_select_tally_prefix parse_titled h.forest formalize _ (Promoting t)
    (fun done b rest u hids hbd hu => ?_) ⟨h, rfl, rfl, fun i => ?_, fun i => ?_⟩
  · have htaken : ∀ c ∈ done, ∃ f, Titled t c f := fun c hc =>
      ((hmem c).1 (hids ▸ List.mem_append_left _ hc)).2
    obtain ⟨hlive, f, hb⟩ := (hmem b).1 (hids ▸ List.mem_append_right _ List.mem_cons_self)
    obtain ⟨p, hbp⟩ : ∃ p, t.parentOf b = some p := by
      obtain ⟨_, p, hp, _⟩ := hb
      exact ⟨p, hp⟩
    refine hu.step h htaken hb hbp hbd fun before after hc c hca => ?_
    have hpair : [b, c].Sublist (t.childrenOf p) := hc ▸ pair_sublist_of_mem_right hca before
    exact (h.forest.precedes_of_siblings (hlive.parent h hbp) hpair (.refl b) (.refl c)).notMem_done
      h.forest hids
  · simp [relabelBy]
  · rw [childrenBy_of_formalOf_ne h fun _ hb => absurd hb List.not_mem_nil]
    simp

/-- The rule for formal listings on a document: each formal paragraph with a block in one of its
paragraphs is an example with the blocks directly in it, and with a note if one of these paragraphs
asks for it. -/
theorem formalListings_of_parse {o : Reader.Options} {text : String} {d : Document}
    (h : Document.parse o text = .ok d) :
    ∃ t', formalListings.apply.run d.tree = .ok (titledBlocks d.tree).length t' ∧
      Promoted d.tree t' :=
  exists_promoted (Document.proper_of_parse h)

/-- A paragraph that goes, in a formal listing within a block of a paragraph that stays. -/
theorem formalListings_of_nested_blocks : ∃ d t',
    Document.parse {} ("<formalpara><para role='long-annotations'>a<screen><formalpara><para>" ++
      "<screen/></para></formalpara></screen></para></formalpara>") = .ok d ∧
    formalListings.apply.run d.tree = .ok 2 t' ∧ Promoted d.tree t' := by
  obtain ⟨d, hparse, htwo⟩ : ∃ d, Document.parse {}
      ("<formalpara><para role='long-annotations'>a<screen><formalpara><para>" ++
        "<screen/></para></formalpara></screen></para></formalpara>") = .ok d ∧
        (titledBlocks d.tree).length = 2 := exists_ok_of_any (by decide +kernel)
  obtain ⟨t', hrun, hp⟩ := formalListings_of_parse hparse
  exact ⟨d, t', hparse, htwo ▸ hrun, hp⟩

end BookMarkup.Rule
