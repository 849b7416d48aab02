import BookMarkup.Proofs.Document.Astray
import BookMarkup.Proofs.Document.Outline
import BookMarkup.Proofs.Document.Tidy

/-!
Which runs of character data get into a tree. The tree that is read is what is left of the outline of
the text, node by node. The reader decides run by run, from the children that it has so far. So the
proof goes backwards over the tokens: for each open element it tells the children that are still to
come from the outline of what is still to be read in it.
-/

namespace BookMarkup

/-- The nodes are what the outline has, one by one: texts for runs, and elements with the attributes of
their tags and with children for what stands in them. -/
inductive Outlined (o : Reader.Options) (t : Tree) : Outline → List NodeId → Prop
  | nil : Outlined o t .nil []
  | run {characters : String} {rest : Outline} {i : NodeId} {ids : List NodeId}
      (hi : t.contentOf i = some { (Node.text characters).content with id := i })
      (h : Outlined o t rest ids) : Outlined o t (.run characters rest) (i :: ids)
  | leaf {content : Node} {rest : Outline} {i : NodeId} {ids : List NodeId}
      (he : content.isElement = false) (hi : t.contentOf i = some { content.content with id := i })
      (h : Outlined o t rest ids) : Outlined o t (.leaf content rest) (i :: ids)
  | element {tag : Tag} {attributes : Attributes} {inner rest : Outline} {i : NodeId}
      {ids : List NodeId} (ha : Reader.attributesOf o tag = .ok attributes)
      (hi : t.contentOf i = some
        { ({ Node.element (o.nameOf tag.name) with attributes } : Node).content with id := i })
      (hinner : Outlined o t inner (t.childrenOf i)) (h : Outlined o t rest ids) :
      Outlined o t (.element tag inner rest) (i :: ids)

namespace Reader

open BookMarkup.Tree Outline

/-- The tree `t'` is what reading comes to in the end, as far as can be told from what lasts. -/
def Leads (r : Reader) (t' : Tree) : Prop :=
  ∀ P, Lasting P → P r.tree (r.opened.map Opened.id) → P t' []

theorem preserves_of_preservesSpace {tag : Tag} {around preserves : Bool}
    (h : preservesSpace tag around = .ok preserves) : preserves = tag.preserves around := by
  rw [preservesSpace] at h
  rw [Tag.preserves]
  split at h <;> simp_all

section Leads

variable {o : Options} {r r' : Reader} {t' : Tree}

theorem leads_of_forM {tokens : List Token} (hr : (forM tokens (take o)).run r = .ok () r')
    (ho : r'.opened = []) : Leads r r'.tree := by
  intro P hP h
  have hlast : P r'.tree (r'.opened.map Opened.id) :=
    run_forM_take (fun _ _ _ _ h hr => hP.take h hr) h hr
  rwa [ho] at hlast

end Leads

/-- Whether blank runs among what is still to come in an open element are kept: if there are no
children yet, this is told by what is to come, and by the first child otherwise. -/
def keeps (o : Options) (t : Tree) (e : Opened) (c : Outline) : Bool :=
  match t.childrenOf e.id with
  | [] => c.keepsBlanks o e.preserves
  | first :: _ => !o.dropBlanks || e.preserves || (t.text? first).isSome

/-- From `t` to `t'`, each open element gets the children that the outline of what is still to come in
it has, and the root comes from what is outside. -/
inductive Awaits (o : Options) (t t' : Tree) : List Opened → List Outline → Prop
  | outside {c : Outline} {ids : List NodeId} (hr : t'.root.toList = t.root.toList ++ ids)
      (h : Outlined o t' (c.elements.kept o false false) ids) : Awaits o t t' [] [c]
  | inside {e : Opened} {rest : List Opened} {c : Outline} {around : List Outline}
      {ids : List NodeId} (hc : t'.childrenOf e.id = t.childrenOf e.id ++ ids)
      (h : Outlined o t' (c.kept o e.preserves (keeps o t e c)) ids)
      (ha : Awaits o t t' rest around) : Awaits o t t' (e :: rest) (c :: around)

section Awaits

variable {o : Options} {t t₁ t' : Tree} {opened : List Opened} {outlines : List Outline}

theorem keeps_congr {e : Opened} (c : Outline) (hc : t₁.childrenOf e.id = t.childrenOf e.id)
    (ht : ∀ i ∈ t.childrenOf e.id, t₁.text? i = t.text? i) : keeps o t₁ e c = keeps o t e c := by
  rw [keeps, keeps, hc]
  cases hk : t.childrenOf e.id with
  | nil => rfl
  | cons first more =>
      rw [hk] at ht
      simp only [ht first List.mem_cons_self]

theorem Awaits.exists_cons (h : Awaits o t t' opened outlines) :
    ∃ c around, outlines = c :: around := by
  cases h with
  | outside => exact ⟨_, _, rfl⟩
  | inside => exact ⟨_, _, rfl⟩

/-- Elements to which nothing comes in between still await the same. -/
theorem Awaits.congr (h : Awaits o t₁ t' opened outlines) (hr : t₁.root = t.root)
    (hc : ∀ e ∈ opened, t₁.childrenOf e.id = t.childrenOf e.id)
    (ht : ∀ e ∈ opened, ∀ i ∈ t.childrenOf e.id, t₁.text? i = t.text? i) :
    Awaits o t t' opened outlines := by
  induction h with
  | outside hroot h => exact .outside (hr ▸ hroot) h
  | @inside e rest c around ids hids h _ ih =>
      have he := hc e List.mem_cons_self
      rw [keeps_congr c he (ht e List.mem_cons_self)] at h
      exact .inside (he ▸ hids) h (ih (fun e he => hc e (List.mem_cons_of_mem _ he))
        fun e he => ht e (List.mem_cons_of_mem _ he))

end Awaits

section Take

variable {o : Options} {r r' : Reader} {t' : Tree} {top : Opened} {rest : List Opened}

/-- What comes below the innermost open element is nothing to those around it. -/
theorem Awaits.of_adopt {content : Node} {around : List Outline} (hg : Grown r)
    (ho : r.opened = top :: rest)
    (h : Awaits o (r.tree.adopt top.id content) t' rest around) : Awaits o r.tree t' rest around := by
  have htop := hg.top_lt ho
  refine h.congr (root_adopt _ _ _) (fun e he => ?_) fun e he i hi => ?_
  · rw [childrenOf_adopt htop, if_neg (Nat.ne_of_lt (hg.outer_lt ho he))]
  · exact text?_adopt_of_lt top.id content
      (lt_size_of_parentOf (hg.proper.forest.mem_childrenOf.1 hi))

theorem keeps_adopt {content : Node} {c : Outline} (c' : Outline) (hg : Grown r)
    (ho : r.opened = top :: rest) (hk : content.isText = false) (hc : c'.isMarkup = true) :
    keeps o (r.tree.adopt top.id content) top c = keeps o r.tree top c' := by
  have htop := hg.top_lt ho
  rw [keeps, keeps, childrenOf_adopt htop, if_pos rfl]
  cases hch : r.tree.childrenOf top.id with
  | nil => simp [text?_adopt_new htop, hk, keepsBlanks_of_markup (.inr hc)]
  | cons first more =>
      have hm : first ∈ r.tree.childrenOf top.id := hch ▸ List.mem_cons_self
      simp [text?_adopt_of_lt top.id content
        (lt_size_of_parentOf (hg.proper.forest.mem_childrenOf.1 hm))]

/-- Among children that end with markup, it is the first one that tells. -/
theorem keepsBlank_eq {closing : Bool} (hg : Grown r) (ho : r.opened = top :: rest)
    (hlast : ∀ i ∈ (r.tree.childrenOf top.id).getLast?, r.tree.text? i = none) :
    keepsBlank r.tree top.id closing =
      match r.tree.childrenOf top.id with
      | [] => closing
      | first :: _ => (r.tree.text? first).isSome := by
  rw [Bool.eq_iff_iff, keepsBlank_iff (hg.top_lt ho)]
  have hnone : ¬ ∃ i ∈ (r.tree.childrenOf top.id).getLast?, ∃ v, r.tree.text? i = some v := by
    rintro ⟨i, hi, v, hv⟩
    simp [hlast i hi] at hv
  cases hch : r.tree.childrenOf top.id with
  | nil => simp
  | cons first more =>
      rw [hch] at hnone
      simp only [hnone, or_false, reduceCtorEq, and_false, false_or, List.head?_cons,
        Option.mem_some_iff, exists_eq_left', Option.isSome_iff_exists]

/-- What is decided at the end of a run is what the outline of the element tells. -/
theorem flush_awaiting {closing : Bool} {c : Outline} (h : Tidy Anywhere Growing r)
    (ho : r.opened = top :: rest)
    (hc : closing = true ∧ c = .nil ∨ closing = false ∧ c.isMarkup = true) (hs : r.run ≠ "") :
    flush o closing r =
      if keeps o r.tree top (.run r.run c) || !Text.isBlank r.run then
        { r with run := "", tree := r.tree.adopt top.id (Node.text r.run) }
      else { r with run := "" } := by
  have hcond : (!o.dropBlanks || top.preserves || !Text.isBlank r.run ||
      keepsBlank r.tree top.id closing) =
        (keeps o r.tree top (.run r.run c) || !Text.isBlank r.run) := by
    rw [keepsBlank_eq h.grown ho (h.inner top rest ho).last, keeps]
    cases r.tree.childrenOf top.id with
    | nil =>
        have hrun : (Outline.run r.run c).isRun = closing := by
          rcases hc with ⟨rfl, rfl⟩ | ⟨rfl, hc⟩
          · rfl
          · cases c <;> simp [isMarkup, isRun] at hc ⊢
        simp only [keepsBlanks, hrun, beginsVisibly]
        cases closing <;> cases Text.isBlank r.run <;> simp
    | cons first more =>
        cases (r.tree.text? first).isSome <;> cases Text.isBlank r.run <;> simp
  simp only [flush, ho, if_neg hs, hcond]

/-- Once a run has ended, the same is kept of what comes after it. -/
theorem keeps_flush {closing : Bool} {c : Outline} (h : Tidy Anywhere Growing r)
    (ho : r.opened = top :: rest)
    (hc : closing = true ∧ c = .nil ∨ closing = false ∧ c.isMarkup = true) (hs : r.run ≠ "") :
    keeps o (flush o closing r).tree top c = keeps o r.tree top (.run r.run c) := by
  have htop := h.grown.top_lt ho
  have hmarkup := keepsBlanks_of_markup (o := o) (hc.imp And.right And.right) top.preserves
  rw [flush_awaiting h ho hc hs]
  cases hch : r.tree.childrenOf top.id with
  | nil =>
      have hkeeps : keeps o r.tree top (.run r.run c) =
          (Outline.run r.run c).keepsBlanks o top.preserves := by rw [keeps, hch]
      rw [hkeeps]
      split
      · next hk =>
        rw [keeps, childrenOf_adopt htop, if_pos rfl, hch]
        simp only [List.nil_append, text?_adopt_new htop]
        simpa [keepsBlanks, beginsVisibly, Node.text, Node.isText] using hk
      · next hk =>
        simp only [keeps, hch, hmarkup]
        simp only [keepsBlanks, Bool.not_eq_true, Bool.or_eq_false_iff] at hk ⊢
        simp [hk]
  | cons first more =>
      have hm : first ∈ r.tree.childrenOf top.id := hch ▸ List.mem_cons_self
      split
      · rw [keeps, keeps, childrenOf_adopt htop, if_pos rfl, hch]
        simp [text?_adopt_of_lt top.id _
          (lt_size_of_parentOf (h.grown.proper.forest.mem_childrenOf.1 hm))]
      · simp only [keeps, hch]

theorem Awaits.of_flush {closing : Bool} {c : Outline} {around : List Outline}
    (h : Tidy Anywhere Growing r)
    (hc : closing = true ∧ c = .nil ∨ closing = false ∧ c.isMarkup = true)
    (hl : Leads (flush o closing r) t')
    (ha : Awaits o (flush o closing r).tree t' r.opened (c :: around)) :
    Awaits o r.tree t' r.opened (c.prepend r.run :: around) := by
  by_cases hs : r.run = ""
  · have ht : (flush o closing r).tree = r.tree := by
      rw [flush]
      cases r.opened with
      | nil => rfl
      | cons => simp [hs]
    rwa [hs, prepend_empty, ← ht]
  · cases ho : r.opened with
    | nil =>
        have ht : (flush o closing r).tree = r.tree := by rw [flush, ho]
        rw [ho, ht] at ha
        cases ha with
        | outside hr h => exact .outside hr (by rwa [elements_prepend])
    | cons top rest =>
        have htop := h.grown.top_lt ho
        rw [ho] at ha
        cases ha with
        | @inside _ _ _ _ ids hch hids harest =>
            rw [keeps_flush h ho hc hs] at hids
            rw [flush_awaiting h ho hc hs] at hch harest hl
            rw [prepend_of_markup hs (hc.imp And.right And.right)]
            split at hch
            · next hk =>
              rw [if_pos hk] at harest hl
              rw [childrenOf_adopt htop, if_pos rfl, List.append_assoc, List.singleton_append] at hch
              have hnew := hl _ (lasting_content r.tree.nodes.size _)
                ((contentOf_adopt htop _ _).trans (if_pos rfl))
              refine .inside hch ?_ (harest.of_adopt h.grown ho)
              rw [kept, if_pos hk]
              exact .run hnew hids
            · next hk =>
              rw [if_neg hk] at harest
              refine .inside hch ?_ harest
              rw [kept, if_neg hk]
              exact hids

theorem Awaits.of_addLeaf {content : Node} {c : Outline} {around : List Outline} (hg : Grown r)
    (hk : content.isText = false) (he : content.isElement = false) (hl : Leads (addLeaf content r) t')
    (ha : Awaits o (addLeaf content r).tree t' r.opened (c :: around)) :
    Awaits o r.tree t' r.opened (.leaf content c :: around) := by
  cases ho : r.opened with
  | nil =>
      rw [addLeaf, ho] at ha
      cases ha with
      | outside hr h => exact .outside hr h
  | cons top rest =>
      have htop := hg.top_lt ho
      rw [addLeaf, ho] at ha hl
      cases ha with
      | inside hch hids harest =>
          rw [childrenOf_adopt htop, if_pos rfl, List.append_assoc, List.singleton_append] at hch
          rw [keeps_adopt (.leaf content c) hg ho hk rfl] at hids
          have hnew := hl _ (lasting_content r.tree.nodes.size _)
            ((contentOf_adopt htop _ _).trans (if_pos rfl))
          exact .inside hch (.leaf he hnew hids) (harest.of_adopt hg ho)

theorem Awaits.of_addElement {tag : Tag} {id : NodeId} {inner c : Outline} {around : List Outline}
    (hg : Grown r) (hr : (addElement o tag).run r = .ok id r')
    (hnew : ∀ n, r'.tree.contentOf id = some n → t'.contentOf id = some n)
    (hinner : ∀ p, p = tag.preserves ((r.opened.head?.map Opened.preserves).getD false) →
      Outlined o t' (inner.kept o p (inner.keepsBlanks o p)) (t'.childrenOf id))
    (ha : Awaits o r'.tree t' r.opened (c :: around)) :
    Awaits o r.tree t' r.opened (.element tag inner c :: around) := by
  rw [run_addElement] at hr
  split at hr
  · simp at hr
  · next attributes hattributes =>
    cases ho : r.opened with
    | nil =>
        simp only [ho] at hr
        split at hr
        · simp at hr
        · next hroot =>
          simp only [EStateM.Result.ok.injEq] at hr
          obtain ⟨rfl, rfl⟩ := hr
          rw [ho] at ha hinner
          cases ha with
          | outside hr h =>
              refine .outside ?_
                (.element hattributes (hnew _ ?_) (hinner _ rfl) h)
              · rw [hroot]
                exact hr
              · exact (contentOf_plant r.tree _ r.tree.nodes.size).trans (if_pos rfl)
    | cons top rest =>
        have htop := hg.top_lt ho
        simp only [ho, EStateM.Result.ok.injEq] at hr
        obtain ⟨rfl, rfl⟩ := hr
        rw [ho] at ha hinner
        cases ha with
        | inside hch hids harest =>
            rw [childrenOf_adopt htop, if_pos rfl, List.append_assoc, List.singleton_append] at hch
            rw [keeps_adopt (.element tag inner c) hg ho rfl rfl] at hids
            exact .inside hch (.element hattributes
              (hnew _ ((contentOf_adopt htop _ _).trans (if_pos rfl))) (hinner _ rfl) hids)
              (harest.of_adopt hg ho)

theorem addElement_ok {tag : Tag} {id : NodeId} (hr : (addElement o tag).run r = .ok id r') :
    id = r.tree.nodes.size ∧ id < r'.tree.nodes.size ∧ r'.run = r.run ∧ r'.opened = r.opened := by
  rw [run_addElement] at hr
  split at hr
  · simp at hr
  · split at hr
    · simp only [EStateM.Result.ok.injEq] at hr
      obtain ⟨rfl, rfl⟩ := hr
      exact ⟨rfl, by simp [size_adopt], rfl, rfl⟩
    · split at hr
      · simp at hr
      · simp only [EStateM.Result.ok.injEq] at hr
        obtain ⟨rfl, rfl⟩ := hr
        exact ⟨rfl, by simp [size_founded], rfl, rfl⟩

section Token

variable {token : Token} {content : Node} {tag : Tag} {name : String} {outlines : List Outline}

theorem Awaits.of_leaf (ht : token.leaf? = some content)
    (hp : ∀ c around, token.precede (c :: around) = .leaf content c :: around)
    (h : Tidy Anywhere Growing r) (hl : Leads r' t')
    (ha : Awaits o r'.tree t' r'.opened (outlines.modifyHead (prepend r'.run)))
    (hr : (take o token).run r = .ok () r') :
    Awaits o r.tree t' r.opened ((token.precede outlines).modifyHead (prepend r.run)) := by
  simp only [run_take_leaf o r ht, EStateM.Result.ok.injEq, true_and] at hr
  subst hr
  simp only [run_addLeaf, run_flush, opened_addLeaf, opened_flush, modifyHead_prepend_empty] at ha
  obtain ⟨c, around, rfl⟩ := ha.exists_cons
  rw [hp]
  have hadd : Awaits o (flush o false r).tree t' (flush o false r).opened
      (.leaf content c :: around) :=
    Awaits.of_addLeaf (h.grown.flush false) (isText_of_leaf? ht) (isElement_of_leaf? ht) hl
      (by rwa [opened_flush])
  rw [opened_flush] at hadd
  exact hadd.of_flush h (.inr ⟨rfl, rfl⟩) fun P hP hp => hl P hP (hP.addLeaf hp content)

variable (h : Tidy Anywhere Growing r) (hl : Leads r' t')
  (ha : Awaits o r'.tree t' r'.opened (outlines.modifyHead (prepend r'.run)))

include h hl ha

/-- An element is begun; what stands in it is awaited from then on. -/
theorem Awaits.of_startTag (hr : (take o (.startTag tag)).run r = .ok () r') :
    Awaits o r.tree t' r.opened
      (((Token.startTag tag).precede outlines).modifyHead (prepend r.run)) := by
  have hd : o.dropBlanks = true ∨ ∀ t i, Anywhere t i := .inr fun _ _ => trivial
  have hflush := h.grown.flush (o := o) false
  obtain ⟨preserves, id, r₁, hp, hadd, rfl⟩ := run_take_startTag_eq_ok.1 hr
  have hnone := ((h.flush steady_anywhere hd).addElement steady_anywhere hadd).2
  obtain ⟨-, -, hrun, ho⟩ := addElement_ok hadd
  rw [run_flush] at hrun
  rw [hrun, modifyHead_prepend_empty, ho] at ha
  cases ha with
  | inside hch hids harest =>
      obtain ⟨c, around, rfl⟩ := harest.exists_cons
      rw [hnone, List.nil_append] at hch
      rw [keeps, hnone, ← hch] at hids
      have hadded := Awaits.of_addElement hflush hadd
        (fun n hn => hl _ (lasting_content id n) hn)
        (fun p he => by rwa [he, ← preserves_of_preservesSpace hp]) harest
      rw [opened_flush] at hadded
      exact hadded.of_flush h (.inr ⟨rfl, rfl⟩)
        fun P hP hp => hl P hP (hP.addElement hp hadd)

theorem Awaits.of_emptyTag (hr : (take o (.emptyTag tag)).run r = .ok () r') :
    Awaits o r.tree t' r.opened
      (((Token.emptyTag tag).precede outlines).modifyHead (prepend r.run)) := by
  have hd : o.dropBlanks = true ∨ ∀ t i, Anywhere t i := .inr fun _ _ => trivial
  have hflush := h.grown.flush (o := o) false
  obtain ⟨id, hadd⟩ := run_take_emptyTag_eq_ok.1 hr
  have hnone := ((h.flush steady_anywhere hd).addElement steady_anywhere hadd).2
  obtain ⟨hid, hlt, hrun, ho⟩ := addElement_ok hadd
  rw [run_flush] at hrun
  rw [hrun, modifyHead_prepend_empty, ho] at ha
  obtain ⟨c, around, rfl⟩ := ha.exists_cons
  have hout : id ∉ r'.opened.map Opened.id := by
    rw [ho, hid, List.mem_map]
    rintro ⟨e, he, heq⟩
    obtain ⟨name, hname⟩ := hflush.element e he
    exact Nat.ne_of_lt (lt_size_of_tag? hname) heq
  have hch : t'.childrenOf id = [] :=
    (hl _ (lasting_closed id (· = [])) ⟨hlt, hout, hnone⟩).2.2
  have hadded : Awaits o (flush o false r).tree t' (flush o false r).opened
      (.element tag .nil c :: around) :=
    Awaits.of_addElement hflush hadd (fun n hn => hl _ (lasting_content id n) hn)
      (fun _ _ => by rw [hch]; exact .nil) ha
  rw [opened_flush] at hadded
  exact hadded.of_flush h (.inr ⟨rfl, rfl⟩)
    fun P hP hp => hl P hP (hP.pop _ _ _ (hP.addElement hp hadd))

theorem Awaits.of_endTag (hr : (take o (.endTag name)).run r = .ok () r') :
    Awaits o r.tree t' r.opened
      (((Token.endTag name).precede outlines).modifyHead (prepend r.run)) := by
  obtain ⟨top, rest, ho, -, rfl⟩ := run_take_endTag_eq_ok.1 hr
  simp only [run_flush, modifyHead_prepend_empty] at ha
  have hgrown := h.grown.flush (o := o) true
  have hout : top.id ∉ rest.map Opened.id := by
    rw [List.mem_map]
    rintro ⟨e, he, heq⟩
    exact Nat.ne_of_lt (hgrown.outer_lt ho he) heq
  have hch := (hl _ (lasting_closed top.id (· = (flush o true r).tree.childrenOf top.id))
    ⟨hgrown.top_lt ho, hout, rfl⟩).2.2
  have hclosed : Awaits o (flush o true r).tree t' r.opened (.nil :: outlines) := by
    rw [opened_flush] at ho
    rw [ho]
    exact .inside (hch.trans (List.append_nil _).symm) .nil ha
  refine hclosed.of_flush h (.inl ⟨rfl, rfl⟩) fun P hP hp => hl P hP ?_
  rw [ho] at hp
  exact hP.pop _ _ _ hp

/-- A token makes of what is still to come the outlines that it makes of them. -/
theorem Awaits.of_take (hr : (take o token).run r = .ok () r') :
    Awaits o r.tree t' r.opened ((token.precede outlines).modifyHead (prepend r.run)) := by
  cases token with
  | startTag tag => exact of_startTag h hl ha hr
  | emptyTag tag => exact of_emptyTag h hl ha hr
  | endTag name => exact of_endTag h hl ha hr
  | text characters =>
      simp only [run_take_text, EStateM.Result.ok.injEq, true_and] at hr
      subst hr
      rwa [Token.precede, modifyHead_prepend]
  | reference name =>
      obtain ⟨c, hc, rfl⟩ := run_take_reference_eq_ok.1 hr
      rw [Token.precede, hc, modifyHead_prepend]
      exact ha
  | cdata characters => exact of_leaf rfl (fun _ _ => rfl) h hl ha hr
  | comment characters => exact of_leaf rfl (fun _ _ => rfl) h hl ha hr
  | instruction target data => exact of_leaf rfl (fun _ _ => rfl) h hl ha hr
  | declaration tag =>
      obtain ⟨standalone, rfl⟩ := exists_of_run_take_declaration hr
      exact ha
  | doctype =>
      simp only [run_take_doctype, EStateM.Result.ok.injEq, true_and] at hr
      subst hr
      exact ha

end Token

/-- What the tokens make of a tree is told by their outlines. -/
theorem awaits_of_forM {tokens : List Token} (h : Tidy Anywhere Growing r)
    (hr : (forM tokens (take o)).run r = .ok () r') (ho : r'.opened = []) :
    Awaits o r.tree r'.tree r.opened ((ofRest tokens).modifyHead (prepend r.run)) := by
  induction tokens generalizing r with
  | nil =>
      obtain rfl : r = r' := by simpa using hr
      rw [ho]
      refine .outside (List.append_nil _).symm ?_
      rw [elements_prepend]
      exact .nil
  | cons token tokens ih =>
      obtain ⟨r₁, hr₁, hr⟩ := run_forM_take_cons_eq_ok.1 hr
      have htidy := h.take steady_anywhere (.inr fun _ _ => trivial) (heeds_anywhere o token) hr₁
      exact Awaits.of_take h (leads_of_forM hr ho) (ih htidy hr) hr₁

end Take

end Reader

namespace Document

/-- The nodes of a tree that is read are what is left of the outline of the text, in place and in
order. -/
theorem outlined_of_parse {o : Reader.Options} {text : String} {d : Document}
    (h : parse o text = .ok d) :
    Outlined o d.tree ((Outline.ofText text).elements.kept o false false) d.tree.root.toList := by
  obtain ⟨r, hr, rfl⟩ := parse_ok.1 h
  obtain ⟨hr, -, ho⟩ := Reader.run_takeAll_ok.1 hr
  have hawaits := Reader.awaits_of_forM (Reader.tidy_empty _) hr ho
  rw [Outline.modifyHead_prepend_empty] at hawaits
  rw [Outline.ofText]
  generalize Outline.ofRest (Token.scan (Token.withoutMark text.toList)).items = outlines at hawaits
  cases hawaits with
  | outside hroot h =>
      obtain rfl := hroot
      exact h

/-- Which runs of a text become texts of the tree. The runs are as long as can be, and nothing is left
out of the elements but runs: a run is, exactly if it is blank, blanks are dropped at all, no
`xml:space` around it has space preserved, it is not all that stands in its element, and the element
does not begin with a run that is not blank. -/
theorem kept_runs_of_parse {o : Reader.Options} {text : String} {d : Document}
    (h : parse o text = .ok d) :
    (Outline.ofText text).Parted ∧
      Outlined o d.tree ((Outline.ofText text).elements.kept o false false) d.tree.root.toList :=
  ⟨Outline.parted_ofText text, outlined_of_parse h⟩

/-- Blank runs are dropped between markup, and kept where they are alone, after a run that leads, and
where space is preserved. -/
theorem kept_runs_of_parse_blanks :
    let text := "<a> <b> </b>&#32;<c>x<!--y--> <d/></c><e xml:space='preserve'> <f/></e> </a>"
    ∃ d, parse {} text = .ok d ∧
      Outlined {} d.tree (.element ⟨"a", []⟩
        (.element ⟨"b", []⟩ (.run " " .nil)
        (.element ⟨"c", []⟩ (.run "x" (.leaf (Node.comment "y") (.run " "
          (.element ⟨"d", []⟩ .nil .nil))))
        (.element ⟨"e", " xml:space='preserve'".toList⟩ (.run " " (.element ⟨"f", []⟩ .nil .nil))
          .nil))) .nil) d.tree.root.toList := by
  obtain ⟨d, hd, -⟩ : ∃ d, parse {}
      "<a> <b> </b>&#32;<c>x<!--y--> <d/></c><e xml:space='preserve'> <f/></e> </a>" = .ok d ∧ True :=
    exists_ok_of_any (by decide +kernel)
  refine ⟨d, hd, ?_⟩
  convert (kept_runs_of_parse hd).2 using 1
  decide +kernel

end Document

end BookMarkup
