import BookMarkup.Proofs.Document.Reading
import BookMarkup.Proofs.Rule.InformalListing
import BookMarkup.Proofs.Tree.Precedence

/-!
What the rule for informal listings makes of a tree, told for all blocks at once. The new elements
are numbered as their blocks come in the document, and each stands where its block stood. A block
that is to come still has the parent and the role that it had, whatever became of the blocks around
it, so that the loop does to each of them what it would do to it alone.
-/

namespace BookMarkup.Rule

open BookMarkup.Tree

def isLoose (t : Tree) (b : NodeId) : Bool :=
  isCode t b && (t.parentOf b).any fun p => !isListingWrapper (t.tag? p)

theorem isLoose_iff {t : Tree} {b : NodeId} :
    isLoose t b = true ↔
      IsCode t b ∧ ∃ p, t.parentOf b = some p ∧ isListingWrapper (t.tag? p) = false := by
  rw [isLoose, Bool.and_eq_true, Option.any_eq_true, isCode_iff]
  simp only [Bool.not_eq_true']

def looseBlocks (t : Tree) : List NodeId :=
  (t.live.map Node.id).filter (isLoose t)

def wrapperOf (t : Tree) (blocks : List NodeId) (b : NodeId) : NodeId :=
  t.nodes.size + blocks.idxOf b

/-- The tree `t'` is `t` with a new element around each of the blocks. -/
structure Encased (t : Tree) (blocks : List NodeId) (t' : Tree) : Prop where
  proper : Proper t'
  root : t'.root = t.root
  size : t'.nodes.size = t.nodes.size + blocks.length
  contentOf : ∀ i < t.nodes.size, t'.contentOf i =
    if i ∈ blocks then (t.contentOf i).map wrappedLabel else t.contentOf i
  parentOf : ∀ i < t.nodes.size, t'.parentOf i =
    if i ∈ blocks then some (wrapperOf t blocks i) else t.parentOf i
  childrenOf : ∀ i < t.nodes.size, t'.childrenOf i =
    (t.childrenOf i).map fun c => if c ∈ blocks then wrapperOf t blocks c else c
  wrapper : ∀ b ∈ blocks,
    t'.contentOf (wrapperOf t blocks b) = some (noteIf (asksNote t b)
      { Node.element "informalexample" with id := wrapperOf t blocks b }) ∧
    t'.childrenOf (wrapperOf t blocks b) = [b]

section Encased

variable {t u u' : Tree} {blocks : List NodeId} {b p : NodeId}

theorem Encased.refl (h : Proper t) : Encased t [] t where
  proper := h
  root := rfl
  size := rfl
  contentOf i _ := by simp
  parentOf i _ := by simp
  childrenOf i _ := by simp
  wrapper b hb := absurd hb List.not_mem_nil

theorem wrapperOf_append_of_mem (hb : b ∈ blocks) (c : NodeId) :
    wrapperOf t (blocks ++ [c]) b = wrapperOf t blocks b :=
  numberFor_append_of_mem t hb c

theorem Encased.wrapperOf_new (h : Encased t blocks u) (hb : b ∉ blocks) :
    wrapperOf t (blocks ++ [b]) b = u.nodes.size :=
  (numberFor_append_self t hb).trans h.size.symm

theorem Encased.wrapperOf_lt (h : Encased t blocks u) (hb : b ∈ blocks) :
    wrapperOf t blocks b < u.nodes.size :=
  h.size ▸ numberFor_lt t hb

theorem Encased.lt (h : Encased t blocks u) {i : NodeId} (hi : i < t.nodes.size) :
    i < u.nodes.size := by
  rw [h.size]
  exact Nat.lt_add_right _ hi

theorem Encased.tag?_wrapper (h : Encased t blocks u) (hb : b ∈ blocks) :
    u.tag? (wrapperOf t blocks b) = some "informalexample" := by
  rw [tag?_eq, (h.wrapper b hb).1, Option.bind_some, tag?_noteIf]
  rfl

/-- A block that is not yet wrapped is as loose as it was before. -/
theorem Encased.isLoose_eq (h : Encased t blocks u) (ht : Proper t)
    (hblocks : ∀ c ∈ blocks, IsCode t c) (hb : b < t.nodes.size) (hbb : b ∉ blocks) :
    isLoose u b = isLoose t b := by
  have hwrapper (i : NodeId) (hi : i < t.nodes.size) :
      isListingWrapper (u.tag? i) = isListingWrapper (t.tag? i) := by
    have hcont := h.contentOf i hi
    split at hcont
    · next hm =>
      obtain ⟨tag, htag, _⟩ := hblocks i hm
      rw [(hblocks i hm).not_listingWrapper, tag?_of_wrappedLabel hcont htag]
      rfl
    · rw [tag?_eq_of_contentOf hcont]
  have hcont := h.contentOf b hb
  have hpar := h.parentOf b hb
  rw [if_neg hbb] at hcont hpar
  rw [isLoose, isLoose, isCode, isCode, tag?_eq_of_contentOf hcont, hpar]
  cases hp : t.parentOf b with
  | none => rfl
  | some p => rw [Option.any_some, Option.any_some, hwrapper p (ht.forest.parent_lt hp)]

theorem Encased.step (h : Encased t blocks u) (hb : b < t.nodes.size) (hbb : b ∉ blocks)
    (hu : Cased u b p u') :
    Encased t (blocks ++ [b]) u' := by
  obtain ⟨he, hcont, hchild⟩ := hu
  have hnew := h.wrapperOf_new hbb
  have hne {i : NodeId} (hi : i < t.nodes.size) : i ≠ u.nodes.size := Nat.ne_of_lt (h.lt hi)
  have hmem {i : NodeId} : i ∈ blocks ++ [b] ↔ i ∈ blocks ∨ i = b := by simp
  have hold {c : NodeId} (hc : c ∈ blocks) : c ≠ b := ne_of_mem_of_not_mem hc hbb
  have hout {c : NodeId} (hc : c ∈ blocks) : wrapperOf t blocks c ≠ b :=
    Nat.ne_of_gt (Nat.lt_of_lt_of_le hb (Nat.le_add_right _ _))
  refine ⟨he.rearranged.proper, he.rearranged.root.trans h.root, ?_, fun i hi => ?_,
    fun i hi => ?_, fun i hi => ?_, fun c hc => ?_⟩
  · rw [he.size, h.size, List.length_append, List.length_singleton, Nat.add_assoc]
  · rw [hcont, if_neg (hne hi), h.contentOf i hi]
    simp only [hmem]
    by_cases hib : i = b
    · simp [hib, hbb]
    · simp [hib]
  · rw [he.parentOf, if_neg (hne hi), h.parentOf i hi]
    simp only [hmem]
    by_cases hib : i = b
    · simp [hib, hnew]
    · by_cases hi : i ∈ blocks
      · simp [hi, hib, wrapperOf_append_of_mem hi]
      · simp [hi, hib]
  · rw [hchild, if_neg (hne hi), h.childrenOf i hi, List.map_map]
    refine List.map_congr_left fun c _ => ?_
    rw [Function.comp_apply]
    simp only [hmem]
    by_cases hc : c ∈ blocks
    · simp [hc, hout hc, wrapperOf_append_of_mem hc]
    · by_cases hcb : c = b
      · simp [hcb, hbb, hnew]
      · simp [hc, hcb]
  · rcases hmem.1 hc with hc | rfl
    · have hw := Nat.ne_of_lt (h.wrapperOf_lt hc)
      obtain ⟨hwc, hwk⟩ := h.wrapper c hc
      rw [wrapperOf_append_of_mem hc, hcont, if_neg hw, if_neg (hout hc), hchild, if_neg hw, hwk]
      exact ⟨hwc, by rw [List.map_singleton, if_neg (hold hc)]⟩
    · have hnote : asksNote u c = asksNote t c :=
        asksNote_congr (by rw [h.contentOf c hb, if_neg hbb])
      rw [hnew, hcont, if_pos rfl, hchild, if_pos rfl, hnote]
      exact ⟨rfl, rfl⟩

end Encased

theorem mem_looseBlocks {t : Tree} (h : Proper t) {b : NodeId} :
    b ∈ looseBlocks t ↔ t.Live b ∧ isLoose t b = true := by
  rw [looseBlocks, List.mem_filter, h.forest.mem_map_live]

/-- The loop wraps the blocks one by one; those that it has passed have their wrappers. -/
theorem exists_encased {t : Tree} (h : Proper t) :
    ∃ t', informalListings.apply.run t = .ok (looseBlocks t).length t' ∧ Rearranged t t' ∧
      Encased t (looseBlocks t) t' := by
  have hn : Selector.names codeBlocks = [["screen", "programlisting"]] := by cbv
  let s := Selector.mk [["screen", "programlisting"]]
  have hmem (b : NodeId) : b ∈ s.select t ↔ t.Live b ∧ IsCode t b := by
    rw [h.forest.mem_select, Selector.accepts_one_iff, IsCode]
  have hblocks : looseBlocks t = (s.select t).filter (isLoose t) := by
    rw [select_eq_filter, List.filter_filter, looseBlocks]
    refine List.filter_congr fun b _ => ?_
    by_cases hb : isLoose t b = true
    · rw [hb, Bool.true_and, Selector.accepts_one_iff.2 (isLoose_iff.1 hb).1]
    · rw [Bool.not_eq_true] at hb
      rw [hb, Bool.false_and]
  rw [hblocks, ← sum_map_counted]
  refine run_select_tally_prefix (Selector.parse_of_names hn rfl) h.forest wrapBlock _
    (fun done u => Rearranged t u ∧ Encased t (done.filter (isLoose t)) u)
    (fun done b rest u hids hbd hinv => ?_) ⟨.refl h, .refl h⟩
  obtain ⟨hr, hu⟩ := hinv
  have hbb : b ∉ done.filter (isLoose t) := fun hm => hbd (List.mem_filter.1 hm).1
  obtain ⟨hl, hcode⟩ := (hmem b).1 (hids ▸ by simp)
  have hb := h.lt_of_live hl
  have hloose : isLoose u b = isLoose t b :=
    hu.isLoose_eq h (fun c hc => (isLoose_iff.1 (List.mem_filter.1 hc).2).1) hb hbb
  have hcode' : IsCode u b := by
    obtain ⟨tag, ht, hm⟩ := hcode
    have hcont := hu.contentOf b hb
    rw [if_neg hbb] at hcont
    exact ⟨tag, (tag?_eq_of_contentOf hcont).trans ht, hm⟩
  rw [List.filter_append, List.filter_singleton]
  obtain ⟨hrun, hs⟩ | ⟨p, u', hrun, hs, hcased⟩ := run_wrapBlock hu.proper hcode'
  · have hnot : isLoose t b = false := by
      rw [← hloose, ← Bool.not_eq_true, isLoose_iff]
      rintro ⟨_, p, hp, hnot⟩
      simp [hs p hp] at hnot
    rw [hnot]
    exact ⟨u, hrun, hr, by simpa using hu⟩
  · have his : isLoose t b = true := by
      rw [← hloose, isLoose_iff]
      exact ⟨hcode', p, hcased.enclosed.outer, hs⟩
    rw [his]
    exact ⟨u', hrun, hr.trans hcased.enclosed.rearranged, hu.step hb hbb hcased⟩

/-- What the rule for informal listings leaves of a block and its parent, with no regard to its place. -/
theorem Encased.informalListings {t t' : Tree} (h : Proper t)
    (he : Encased t (looseBlocks t) t') : InformalListings t t' where
  listed b hl hb p hp := by
    have hpar := he.parentOf b (h.lt_of_live hl)
    by_cases hs : isListingWrapper (t.tag? p) = true
    · have hnot : b ∉ looseBlocks t := fun hm => by
        obtain ⟨_, q, hq, hqs⟩ := isLoose_iff.1 ((mem_looseBlocks h).1 hm).2
        rw [hp, Option.some.injEq] at hq
        simp [← hq, hs] at hqs
      rw [if_neg hnot] at hpar
      exact .inl ⟨hs, hpar.trans hp⟩
    · rw [Bool.not_eq_true] at hs
      have hm := (mem_looseBlocks h).2 ⟨hl, isLoose_iff.2 ⟨hb, p, hp, hs⟩⟩
      rw [if_pos hm] at hpar
      exact .inr ⟨hs, _, Nat.le_add_right _ _, hpar, he.tag?_wrapper hm⟩
  parentOf i hi hc := by
    rw [he.parentOf i hi, if_neg fun hm => hc (isLoose_iff.1 ((mem_looseBlocks h).1 hm).2).1]
  label i hi := by
    rw [he.contentOf i hi, he.parentOf i hi]
    by_cases hm : i ∈ looseBlocks t
    · have hne : some (wrapperOf t (looseBlocks t) i) ≠ t.parentOf i := fun hp =>
        Nat.not_lt.2 (Nat.le_add_right _ _) (h.forest.parent_lt hp.symm)
      rw [if_pos hm, if_pos hm, if_neg hne]
    · rw [if_neg hm, if_neg hm, if_pos rfl]
  new w hw hlt := by
    have hd : (looseBlocks t).Nodup := h.forest.nodup_live.filter _
    obtain ⟨b, hb, rfl⟩ := exists_numberFor t hd hw (he.size ▸ hlt)
    exact he.tag?_wrapper hb

theorem run_informalListings {t : Tree} (h : Proper t) :
    ∃ n t', informalListings.apply.run t = .ok n t' ∧ Rearranged t t' ∧ InformalListings t t' := by
  obtain ⟨t', hrun, hr, he⟩ := exists_encased h
  exact ⟨_, t', hrun, hr, he.informalListings h⟩

/-- The rule for informal listings on a document: each code block that has no listing around it is
alone in a new element where it was, without its role, which may have asked for a note. -/
theorem informalListings_of_parse {o : Reader.Options} {text : String} {d : Document}
    (h : Document.parse o text = .ok d) :
    ∃ t', informalListings.apply.run d.tree = .ok (looseBlocks d.tree).length t' ∧
      Encased d.tree (looseBlocks d.tree) t' := by
  obtain ⟨t', hrun, -, he⟩ := exists_encased (Document.proper_of_parse h)
  exact ⟨t', hrun, he⟩

/-- A block within a block: both are wrapped. -/
theorem informalListings_of_nested_blocks : ∃ d t',
    Document.parse {} "<a><screen role='long-annotations'><screen/></screen></a>" = .ok d ∧
    informalListings.apply.run d.tree = .ok 2 t' ∧ Encased d.tree (looseBlocks d.tree) t' := by
  obtain ⟨d, hparse, htwo⟩ : ∃ d,
      Document.parse {} "<a><screen role='long-annotations'><screen/></screen></a>" = .ok d ∧
        (looseBlocks d.tree).length = 2 := exists_ok_of_any (by decide +kernel)
  obtain ⟨t', hrun, he⟩ := informalListings_of_parse hparse
  exact ⟨d, t', hparse, htwo ▸ hrun, he⟩

end BookMarkup.Rule
