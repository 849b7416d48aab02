import BookMarkup.Proofs.Document.CharacterData
import BookMarkup.Proofs.Document.Tidy

/-!
The store that a reading leaves, whether it comes to the end of the text or not. All nodes are within
the root and numbered in document order; a fault leaves elements open, but nothing loose, except that
a second root is planted before it is refused.
-/

namespace BookMarkup

namespace Tree

/-- Elements that are left open hold what they hold as if they were closed. -/
theorem Spine.closed {t : Tree} {opened : List NodeId} (h : Spine t opened) : Spine t [] := by
  induction opened with
  | nil => exact h
  | cons a rest ih => exact ih h.pop

section Laid

variable {t : Tree} (hf : Forest t) (h : Laid t [0] 0 t.nodes.size)

include hf h

theorem Laid.within {i : NodeId} (hi : i < t.nodes.size) : Within t i 0 := by
  obtain ⟨n, hn⟩ := Option.isSome_iff_exists.1 (get?_isSome_iff.2 hi)
  have hm : n ∈ t.nodes.toList := List.mem_of_getElem? (by rwa [Array.getElem?_toList])
  rw [← h.subtree_eq hf, hf.mem_subtree, hf.numbered hn] at hm
  exact hm.2

theorem Laid.descendants_eq : t.descendants 0 = .ok (List.range t.nodes.size) := by
  have hlt : 0 < t.nodes.size := (h.bounds List.mem_cons_self).2
  have hids : t.nodes.toList.map Node.id = List.range t.nodes.size := by
    refine List.ext_getElem (by simp) fun k hk _ => ?_
    rw [List.length_map, Array.length_toList] at hk
    rw [List.getElem_map, List.getElem_range, Array.getElem_toList]
    exact hf.numbered (Array.getElem?_eq_getElem hk)
  rw [descendants, hf.walk_eq hlt, h.subtree_eq hf, ← hids]

end Laid

/-- All nodes are within the root, which is the first one, if there are any. -/
def Gathered (t : Tree) : Prop :=
  ∀ i < t.nodes.size, t.root = some 0 ∧ Within t i 0

theorem Spine.gathered {t : Tree} (hf : Forest t) {opened : List NodeId} (h : Spine t opened) :
    t.Gathered := by
  intro i hi
  rcases h.closed with ⟨-, hs⟩ | ⟨hr, hlaid⟩
  · exact absurd (hs ▸ hi) (Nat.not_lt_zero i)
  · exact ⟨hr, hlaid.within hf hi⟩

theorem Within.plant {t : Tree} {i j : NodeId} (h : Within t i j) (content : Node) :
    Within (t.plant content) i j := by
  induction h with
  | refl i => exact .refl i
  | step hp _ ih => exact .step ((parentOf_plant t content _).trans hp) ih

/-- All nodes but the last one are within the first one, which is the root; the last one is an element
that stands by itself and is empty. -/
def Spare (t : Tree) (tag : String) : Prop :=
  ∃ last, t.nodes.size = last + 1 ∧ t.tag? last = some tag ∧ t.parentOf last = none ∧
    t.childrenOf last = [] ∧ t.root = some 0 ∧ 0 < last ∧ ∀ i < last, Within t i 0

theorem Gathered.spare {t : Tree} (hf : Forest t) (h : t.Gathered) {root : NodeId}
    (hr : t.root = some root) (name : String) (attributes : Attributes) :
    (t.plant { Node.element name with attributes }).Spare name := by
  have hlt : root < t.nodes.size := hf.root_lt hr
  have hpos : 0 < t.nodes.size := Nat.lt_of_le_of_lt (Nat.zero_le root) hlt
  refine ⟨t.nodes.size, size_plant _ _, ?_, ?_, ?_, (h root hlt).1, hpos, fun i hi => ?_⟩
  · rw [tag?_eq, contentOf_plant, if_pos rfl]
    rfl
  · rw [parentOf_plant]
    exact parentOf_eq_none_of_size_le (Nat.le_refl _)
  · rw [childrenOf_plant]
    exact childrenOf_eq_nil_of_size_le (Nat.le_refl _)
  · exact (h i hi).2.plant _

/-- A tree as reading leaves it, whether it has all of the text or not. -/
structure Standing (t : Tree) : Prop where
  proper : Proper t
  legible : Legible t
  apart : ∀ i, Apart t (t.childrenOf i)

section Standing

variable {t : Tree} (h : Standing t)

include h

theorem Standing.bare {i : NodeId} {n : Node} (hn : t.get? i = some n) (he : n.isElement = false) :
    n.children = [] ∧ n.attributes = Attributes.empty := by
  have htag : t.tag? i = none := by simp [tag?_of_get? hn, Node.tag?, he]
  obtain ⟨c, hc, halike, -⟩ := h.legible.exists_alike hn
  exact ⟨childrenOf_of_get? hn ▸ h.proper.childrenOf_eq_nil htag,
    halike.attributes.trans (hc.attributes_eq (halike.isElement_eq ▸ he))⟩

theorem Standing.text?_ne (i : NodeId) : t.text? i ≠ some "" := by
  intro hv
  obtain ⟨n, hn, ht, hempty⟩ := text?_eq_some_iff.1 hv
  obtain ⟨c, hc, halike, -⟩ := h.legible.exists_alike hn
  rw [halike.isText_eq] at ht
  cases hc with
  | element => simp [Node.isText, Node.element] at ht
  | text hne => exact hne (halike.value.symm.trans hempty)
  | leaf hl _ => simp [isText_of_leaf? hl] at ht

theorem Standing.plant (name : String) (attributes : Attributes) :
    Standing (t.plant { Node.element name with attributes }) where
  proper := h.proper.plant _
  legible := h.legible.plant (.element name attributes)
  apart i := by
    rw [childrenOf_plant]
    refine (h.apart i).congr fun c hc => ?_
    have hlt := lt_size_of_parentOf (h.proper.forest.mem_childrenOf.1 hc)
    rw [text?_eq, contentOf_plant, if_neg (Nat.ne_of_lt hlt), ← text?_eq]

end Standing

end Tree

namespace Reader

open BookMarkup.Tree

section Standing

variable {o : Options} {free : Tree → NodeId → Prop} {P : Prop → Tree → List NodeId → Prop}
  {r r' : Reader}

theorem Tidy.apart (h : Tidy free P r) (hP : ∀ f t siblings, P f t siblings → Apart t siblings)
    (i : NodeId) : Apart r.tree (r.tree.childrenOf i) := by
  by_cases hi : i ∈ r.opened.map Opened.id
  · obtain ⟨e, he, rfl⟩ := List.mem_map.1 hi
    cases ho : r.opened with
    | nil => simp [ho] at he
    | cons top rest =>
        rw [ho] at he
        rcases List.mem_cons.1 he with rfl | he
        · exact hP _ _ _ (h.inner e rest ho)
        · exact (h.outer top rest ho e he).apart
  · exact (h.placed i hi).apart

theorem Tidy.standing (h : Tidy Anywhere Growing r) (hl : Legible r.tree) : Standing r.tree :=
  ⟨h.grown.proper, hl, h.apart fun _ _ _ hp => hp.apart⟩

/-- The end of a run leaves all standing, be it at an end tag or not. -/
theorem Tidy.standing_flush (h : Tidy Anywhere Growing r) (hl : Legible r.tree) (closing : Bool) :
    Standing (Reader.flush o closing r).tree := by
  refine ⟨(h.grown.flush closing).proper, h.grown.legible_flush hl closing, ?_⟩
  have hd : o.dropBlanks = true ∨ ∀ t i, Anywhere t i := .inr fun _ _ => trivial
  cases closing with
  | false => exact (h.flush steady_anywhere hd).apart fun _ _ _ hp => hp.apart
  | true => exact (h.flush_closing steady_anywhere hd).apart fun _ _ _ hp => hp.apart

def SecondRoot (t : Tree) (fault : Document.Fault) (t' : Tree) : Prop :=
  ∃ name attributes, fault = .secondRoot name ∧ t.root ≠ none ∧
    t' = t.plant { Node.element name with attributes }

theorem addElement_error {tag : Tag} {fault : Document.Fault}
    (hr : (addElement o tag).run r = .error fault r') :
    r'.tree = r.tree ∨ SecondRoot r.tree fault r'.tree := by
  rw [run_addElement] at hr
  split at hr
  · obtain ⟨rfl, rfl⟩ := EStateM.Result.error.inj hr
    exact .inl rfl
  · simp only at hr
    split at hr
    · simp at hr
    · split at hr
      · next hroot =>
        obtain ⟨rfl, rfl⟩ := EStateM.Result.error.inj hr
        exact .inr ⟨_, _, rfl, by simp [hroot], rfl⟩
      · simp at hr

/-- A token that is refused has ended the run at most, or planted a second root after that. -/
theorem take_error {token : Token} {fault : Document.Fault}
    (hr : (take o token).run r = .error fault r') :
    r' = r ∨ ∃ closing, r'.tree = (Reader.flush o closing r).tree ∨
      SecondRoot (Reader.flush o closing r).tree fault r'.tree := by
  cases token with
  | startTag tag =>
      rw [run_take_startTag] at hr
      simp only at hr
      split at hr
      · obtain ⟨-, rfl⟩ := EStateM.Result.error.inj hr
        exact .inr ⟨false, .inl rfl⟩
      · split at hr
        · next hadd =>
          obtain ⟨rfl, rfl⟩ := EStateM.Result.error.inj hr
          exact .inr ⟨false, addElement_error hadd⟩
        · simp at hr
  | emptyTag tag =>
      rw [run_take_emptyTag] at hr
      split at hr
      · next hadd =>
        obtain ⟨rfl, rfl⟩ := EStateM.Result.error.inj hr
        exact .inr ⟨false, addElement_error hadd⟩
      · simp at hr
  | endTag name =>
      rw [run_take_endTag] at hr
      split at hr
      · obtain ⟨-, rfl⟩ := EStateM.Result.error.inj hr
        exact .inr ⟨true, .inl rfl⟩
      · split at hr
        · simp at hr
        · obtain ⟨-, rfl⟩ := EStateM.Result.error.inj hr
          exact .inr ⟨true, .inl rfl⟩
  | reference name =>
      rw [run_take_reference] at hr
      split at hr
      · simp at hr
      · obtain ⟨-, rfl⟩ := EStateM.Result.error.inj hr
        exact .inl rfl
  | text characters => simp [run_take_text] at hr
  | cdata characters => simp [run_take_cdata] at hr
  | comment characters => simp [run_take_comment] at hr
  | instruction target data => simp [run_take_instruction] at hr
  | declaration tag =>
      obtain ⟨standalone, hrun⟩ := run_take_declaration o r tag
      simp [hrun] at hr
  | doctype => simp [run_take_doctype] at hr

/-- The first token that is refused is refused with what those before it have left. -/
theorem exists_of_forM_take_error {I : Reader → Prop} {tokens : List Token}
    (step : ∀ token ∈ tokens, ∀ r r', I r → (take o token).run r = .ok () r' → I r')
    {fault : Document.Fault} (h : I r) (hr : (forM tokens (take o)).run r = .error fault r') :
    ∃ token ∈ tokens, ∃ r₁, I r₁ ∧ (take o token).run r₁ = .error fault r' := by
  induction tokens generalizing r with
  | nil => simp at hr
  | cons token tokens ih =>
      rw [List.forM_cons, EStateM.run_bind] at hr
      cases hr₁ : (take o token).run r with
      | error fault₁ r₁ =>
          rw [hr₁] at hr
          exact ⟨token, List.mem_cons_self, r, h, hr₁.trans hr⟩
      | ok _ r₁ =>
          simp only [hr₁] at hr
          obtain ⟨token', hm, h'⟩ := ih (fun t ht => step t (List.mem_cons_of_mem token ht))
            (step token List.mem_cons_self r r₁ h hr₁) hr
          exact ⟨token', List.mem_cons_of_mem token hm, h'⟩

end Standing

end Reader

namespace Document

open Reader BookMarkup.Tree

variable (o : Reader.Options) (text : String)

/-- A reading ends with what the tokens have left, or at a token that is refused. -/
theorem read_cases {I : Reader → Prop} (start : I {})
    (step : ∀ token ∈ (Token.scan (Token.withoutMark text.toList)).items, ∀ r r', I r →
      (take o token).run r = .ok () r' → I r') :
    ∃ r, I r ∧ ((read o text).document = r.document ∧
        ((read o text).fault = none → r.opened = []) ∨
      ∃ token fault r', (take o token).run r = .error fault r' ∧
        read o text = ⟨r'.document, some fault⟩) := by
  rw [read]
  simp only [takeAll, EStateM.run_bind, List.forM_eq_forM]
  cases hr : (forM (Token.scan (Token.withoutMark text.toList)).items (take o)).run {} with
  | error fault r' =>
      obtain ⟨token, -, r, hi, hr⟩ := exists_of_forM_take_error step start hr
      exact ⟨r, hi, .inr ⟨token, fault, r', hr, rfl⟩⟩
  | ok _ r =>
      refine ⟨r, run_forM_take step start hr, .inl ?_⟩
      simp only
      cases (Token.scan (Token.withoutMark text.toList)).flaw with
      | some spot => simp
      | none =>
          simp only [EStateM.run_bind, EStateM.run_get]
          cases r.opened with
          | nil => simp
          | cons top rest => simp

/-- What a reading leaves stands, and nothing in it is loose, but for a second root that is refused. -/
theorem standing_of_read : (read o text).document.tree.Standing ∧
    ((read o text).fault = none → Spine (read o text).document.tree []) ∧
    (∀ fault, (read o text).fault = some fault → (read o text).document.tree.Gathered ∨
      ∃ tag, fault = .secondRoot tag ∧ (read o text).document.tree.Spare tag) := by
  obtain ⟨r, ⟨ht, hl⟩, ⟨hd, hclosed⟩ | ⟨token, fault, r', hr, hread⟩⟩ := read_cases o text
    (I := fun r => Tidy Anywhere Growing r ∧ r.tree.Legible) ⟨tidy_empty _, legible_empty⟩
    fun token htoken r r' h hr =>
      ⟨h.1.take steady_anywhere (.inr fun _ _ => trivial) (heeds_anywhere o token) hr,
        h.1.grown.legible_take h.2 (faithful_of_scan htoken) hr⟩
  · have htree : (read o text).document.tree = r.tree := congrArg Document.tree hd
    rw [htree]
    refine ⟨ht.standing hl, fun hf => ?_, fun _ _ =>
      .inl (ht.grown.spine.gathered ht.grown.proper.forest)⟩
    have hspine := ht.grown.spine
    rwa [hclosed hf] at hspine
  · rw [hread]
    simp only [reduceCtorEq, false_implies, true_and, Option.some.injEq, forall_eq']
    have flushed (closing : Bool) : (Reader.flush o closing r).tree.Gathered :=
      (ht.grown.flush closing).spine.gathered (ht.grown.flush closing).proper.forest
    rcases take_error hr with rfl | ⟨closing, he | ⟨name, attributes, hfault, hroot, he⟩⟩
    · exact ⟨ht.standing hl, .inl (ht.grown.spine.gathered ht.grown.proper.forest)⟩
    · rw [document, he]
      exact ⟨ht.standing_flush hl closing, .inl (flushed closing)⟩
    · obtain ⟨root, hroot⟩ := Option.ne_none_iff_exists'.1 hroot
      rw [document, he]
      exact ⟨(ht.standing_flush hl closing).plant name attributes, .inr ⟨name, hfault,
        (flushed closing).spare (ht.grown.flush closing).proper.forest hroot name attributes⟩⟩

/-- What a reading leaves is a forest in which only elements hold anything, no text is empty and no
two are side by side. If it comes to the end of the text, then all nodes are in the root, which is
the first one, and they are numbered in document order. If it does not, then all nodes are within the
root all the same, except that a second root has been planted as the last node and is refused. -/
theorem numbered_of_read (o : Reader.Options) (text : String) :
    let reading := read o text
    let t := reading.document.tree
    Forest t ∧
    (∀ i n, t.get? i = some n → n.isElement = false →
      n.children = [] ∧ n.attributes = Attributes.empty) ∧
    (∀ i, t.text? i ≠ some "") ∧
    (∀ p, Apart t (t.childrenOf p)) ∧
    (reading.fault = none → t.root = none ∧ t.nodes.size = 0 ∨
      t.root = some 0 ∧ t.parentOf 0 = none ∧
        t.descendants 0 = .ok (List.range t.nodes.size)) ∧
    (∀ fault, reading.fault = some fault → t.Gathered ∨
      ∃ tag, fault = .secondRoot tag ∧ t.Spare tag) := by
  obtain ⟨hs, hok, herror⟩ := standing_of_read o text
  have hf := hs.proper.forest
  refine ⟨hf, fun i n => hs.bare, hs.text?_ne, hs.apart, fun hnone => ?_, herror⟩
  rcases hok hnone with hempty | ⟨hr, hlaid⟩
  · exact .inl hempty
  · exact .inr ⟨hr, hs.proper.top hr, hlaid.descendants_eq hf⟩

/-- A second root is left in the store, with nothing in it. -/
example :
    let reading := read {} "<a>x</a><b c='d'>y</b>"
    reading.fault = some (.secondRoot "b") ∧
      reading.document.tree.nodes.toList.map (fun n => (n.parent, n.children)) =
        [(none, [1]), (some 0, []), (none, [])] := by
  decide +kernel

end Document

end BookMarkup
