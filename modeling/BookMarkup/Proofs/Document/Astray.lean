import BookMarkup.Proofs.Document.Resuming

/-!
Readings that go astray. In reading nodes are only added, below the innermost open element, so that a
node stays what it is, and an element that has been closed keeps the children that it has. Once such
a thing is not as it is in some tree, the reading cannot end with this tree, whatever the rest of the
text holds.
-/

namespace BookMarkup.Reader

open BookMarkup.Tree

/-- A property of a tree and its open elements that reading keeps: when a node is added and opened,
and when the innermost element is closed. -/
structure Lasting (P : Tree → List NodeId → Prop) : Prop where
  adopt : ∀ t a rest content, P t (a :: rest) → P (t.adopt a content) (t.nodes.size :: a :: rest)
  found : ∀ t content, P t [] → P (t.founded content) [t.nodes.size]
  pop : ∀ t a rest, P t (a :: rest) → P t rest

section Take

variable {P : Tree → List NodeId → Prop} (hP : Lasting P) {o : Options} {r r' : Reader}

include hP

theorem Lasting.adopt_top {t : Tree} {top : Opened} {rest : List Opened} (content : Node)
    (h : P t ((top :: rest).map Opened.id)) :
    P (t.adopt top.id content) ((top :: rest).map Opened.id) :=
  hP.pop _ _ _ (hP.adopt _ _ _ content h)

variable (h : P r.tree (r.opened.map Opened.id))

include h

theorem Lasting.flush (closing : Bool) :
    P (Reader.flush o closing r).tree ((Reader.flush o closing r).opened.map Opened.id) := by
  rcases flush_cases o r closing with he | ⟨top, rest, ho, _, _, he⟩
  · rw [he]
    exact h
  · rw [he]
    rw [ho] at h
    simp only [ho]
    exact hP.adopt_top _ h

theorem Lasting.addLeaf (content : Node) :
    P (Reader.addLeaf content r).tree ((Reader.addLeaf content r).opened.map Opened.id) := by
  rw [Reader.addLeaf]
  split
  · exact h
  · next top rest ho =>
    rw [ho] at h
    simp only [ho]
    exact hP.adopt_top _ h

theorem Lasting.addElement {tag : Tag} {id : NodeId}
    (hr : (Reader.addElement o tag).run r = .ok id r') :
    P r'.tree (id :: r'.opened.map Opened.id) := by
  rw [run_addElement] at hr
  split at hr
  · simp at hr
  · split at hr
    · next top rest ho =>
      simp only [EStateM.Result.ok.injEq] at hr
      obtain ⟨rfl, rfl⟩ := hr
      rw [ho] at h
      simp only [ho]
      exact hP.adopt _ _ _ _ h
    · next ho =>
      split at hr
      · simp at hr
      · simp only [EStateM.Result.ok.injEq] at hr
        obtain ⟨rfl, rfl⟩ := hr
        rw [ho] at h
        simp only [ho]
        exact hP.found _ _ h

theorem Lasting.take {token : Token} (hr : (Reader.take o token).run r = .ok () r') :
    P r'.tree (r'.opened.map Opened.id) := by
  have leaf {content : Node} (hl : token.leaf? = some content) :
      P r'.tree (r'.opened.map Opened.id) := by
    simp only [run_take_leaf o r hl, EStateM.Result.ok.injEq, true_and] at hr
    exact hr ▸ hP.addLeaf (hP.flush h false) content
  cases token with
  | startTag tag =>
      obtain ⟨preserves, id, r₁, -, hadd, rfl⟩ := run_take_startTag_eq_ok.1 hr
      exact hP.addElement (hP.flush h false) hadd
  | emptyTag tag =>
      obtain ⟨id, hadd⟩ := run_take_emptyTag_eq_ok.1 hr
      exact hP.pop _ _ _ (hP.addElement (hP.flush h false) hadd)
  | endTag name =>
      obtain ⟨top, rest, ho, -, rfl⟩ := run_take_endTag_eq_ok.1 hr
      have hflush := hP.flush (o := o) h true
      rw [ho] at hflush
      exact hP.pop _ _ _ hflush
  | text characters =>
      simp only [run_take_text, EStateM.Result.ok.injEq, true_and] at hr
      exact hr ▸ h
  | reference name =>
      obtain ⟨c, -, rfl⟩ := run_take_reference_eq_ok.1 hr
      exact h
  | cdata characters => exact leaf rfl
  | comment characters => exact leaf rfl
  | instruction target data => exact leaf rfl
  | declaration tag =>
      obtain ⟨standalone, rfl⟩ := exists_of_run_take_declaration hr
      exact h
  | doctype =>
      simp only [run_take_doctype, EStateM.Result.ok.injEq, true_and] at hr
      exact hr ▸ h

end Take

/-! ### What stays -/

theorem contentOf_founded_of_lt {t : Tree} {i : NodeId} (hi : i < t.nodes.size) (content : Node) :
    (t.founded content).contentOf i = t.contentOf i := by
  have hcontent : (t.founded content).contentOf i = (t.plant content).contentOf i := rfl
  rw [hcontent, contentOf_plant, if_neg (Nat.ne_of_lt hi)]

theorem text?_founded_of_lt {t : Tree} {i : NodeId} (hi : i < t.nodes.size) (content : Node) :
    (t.founded content).text? i = t.text? i := by
  rw [text?_eq, contentOf_founded_of_lt hi, ← text?_eq]

theorem lasting_content (i : NodeId) (n : Node) : Lasting fun t _ => t.contentOf i = some n := by
  have hlt {t : Tree} (h : t.contentOf i = some n) : i < t.nodes.size :=
    contentOf_isSome_iff.1 (by simp [h])
  exact ⟨fun t a _ content h => (contentOf_adopt_of_lt a content (hlt h)).trans h,
    fun t content h => (contentOf_founded_of_lt (hlt h) content).trans h, fun _ _ _ h => h⟩

theorem lasting_text (i : NodeId) (v : String) : Lasting fun t _ => t.text? i = some v := by
  have hlt {t : Tree} (h : t.text? i = some v) : i < t.nodes.size := by
    obtain ⟨n, hn, _⟩ := text?_eq_some_iff.1 h
    exact lt_size_of_get? hn
  exact ⟨fun t a _ content h => (text?_adopt_of_lt a content (hlt h)).trans h,
    fun t content h => (text?_founded_of_lt (hlt h) content).trans h, fun _ _ _ h => h⟩

theorem lasting_markup (i : NodeId) :
    Lasting fun t _ => i < t.nodes.size ∧ t.text? i = none where
  adopt t a _ content h := by
    rw [size_adopt]
    exact ⟨Nat.lt_succ_of_lt h.1, (text?_adopt_of_lt a content h.1).trans h.2⟩
  found t content h := by
    rw [size_founded]
    exact ⟨Nat.lt_succ_of_lt h.1, (text?_founded_of_lt h.1 content).trans h.2⟩
  pop _ _ _ h := h

theorem lasting_closed (c : NodeId) (Q : List NodeId → Prop) :
    Lasting fun t opened => c < t.nodes.size ∧ c ∉ opened ∧ Q (t.childrenOf c) where
  adopt t a rest content h := by
    obtain ⟨hc, ho, hk⟩ := h
    have hne : ¬ t.nodes.size = c := Nat.ne_of_gt hc
    have ha : ¬ a = c := fun he => ho (he ▸ List.mem_cons_self)
    have hget : (t.adopt a content).get? c = t.get? c := by
      simp only [Tree.adopt, get?_update, get?_plant, if_neg hne, if_neg ha, if_neg (Ne.symm hne)]
    rw [size_adopt, childrenOf, hget, ← childrenOf]
    refine ⟨Nat.lt_succ_of_lt hc, fun hm => ?_, hk⟩
    rcases List.mem_cons.1 hm with he | hm
    · exact hne he.symm
    · exact ho hm
  found t content h := by
    obtain ⟨hc, _, hk⟩ := h
    have hchildren : (t.founded content).childrenOf c = t.childrenOf c :=
      childrenOf_plant t content c
    rw [size_founded, hchildren]
    exact ⟨Nat.lt_succ_of_lt hc, fun hm => Nat.ne_of_lt hc (List.mem_singleton.1 hm), hk⟩
  pop _ a rest h := ⟨h.1, fun hm => h.2.1 (List.mem_cons_of_mem a hm), h.2.2⟩

/-! ### Other trees -/

/-- If the rest of the text can be read to its end, what has been read then is not `t`. -/
def Strays (o : Options) (size : Nat) (t : Tree) (text : List Char) (r : Reader) : Prop :=
  ∀ r', resume o size text r = .ok () r' → r'.tree ≠ t

section Strays

variable {o : Options} {size : Nat} {t : Tree} {text text' : List Char} {r r' : Reader}

theorem Strays.of_eq (h : Strays o size t text' r')
    (he : resume o size text r = resume o size text' r') : Strays o size t text r :=
  fun r'' hr => h r'' (he ▸ hr)

/-- What stays, and is not so in the tree, keeps the reading from it. -/
theorem strays_of_lasting {P : Tree → List NodeId → Prop} (hP : Lasting P)
    (h : P r.tree (r.opened.map Opened.id)) (hn : ¬ P t []) : Strays o size t text r := by
  rintro r' hr rfl
  obtain ⟨htokens, _, ho⟩ := run_takeAll_ok.1 hr
  have hlast : P r'.tree (r'.opened.map Opened.id) :=
    run_forM_take (fun _ _ _ _ h hr => hP.take h hr) h htokens
  rw [ho] at hlast
  exact hn hlast

end Strays

end BookMarkup.Reader
