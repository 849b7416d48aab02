import BookMarkup.Document.Reader
import BookMarkup.Proofs.Tree.Laid

/-!
What reading does, token by token, and what it builds: a proper tree whose nodes are numbered in
document order, with the elements that are still open on its spine.
-/

namespace BookMarkup

namespace Reader

open BookMarkup.Tree

/-! ### One token -/

section Take

variable (o : Options) (r : Reader)

theorem run_addElement (tag : Tag) :
    (addElement o tag).run r =
      match attributesOf o tag with
      | .error fault => .error fault r
      | .ok attributes =>
        let content := { Node.element (o.nameOf tag.name) with attributes }
        match r.opened with
        | top :: _ => .ok r.tree.nodes.size { r with tree := r.tree.adopt top.id content }
        | [] =>
          match r.tree.root with
          | some _ => .error (.secondRoot content.name) { r with tree := r.tree.plant content }
          | none => .ok r.tree.nodes.size { r with tree := r.tree.founded content } := by
  simp only [addElement, EStateM.run_bind]
  cases attributesOf o tag with
  | error fault => rfl
  | ok attributes =>
      simp only [Step.check, EStateM.run_pure, EStateM.run_get]
      cases hop : r.opened with
      | nil =>
          simp only [root_plant]
          cases hr : r.tree.root <;> rfl
      | cons top rest => rfl

theorem run_take_startTag (tag : Tag) :
    (take o (.startTag tag)).run r =
      let inherited := ((flush o false r).opened.head?.map Opened.preserves).getD false
      match preservesSpace tag inherited with
      | .error fault => .error fault (flush o false r)
      | .ok preserves =>
        match (addElement o tag).run (flush o false r) with
        | .error fault r' => .error fault r'
        | .ok id r' =>
          .ok () { r' with opened := ⟨id, o.nameOf tag.name, preserves⟩ :: r'.opened } := by
  simp only [take, EStateM.run_bind, EStateM.run_modify, EStateM.run_get]
  cases preservesSpace tag (((flush o false r).opened.head?.map Opened.preserves).getD false) with
  | error fault => rfl
  | ok preserves =>
      simp only [Step.check, EStateM.run_pure]
      cases (addElement o tag).run (flush o false r) <;> rfl

theorem run_take_emptyTag (tag : Tag) :
    (take o (.emptyTag tag)).run r =
      match (addElement o tag).run (flush o false r) with
      | .error fault r' => .error fault r'
      | .ok _ r' => .ok () r' := by
  simp only [take, EStateM.run_bind, EStateM.run_modify, EStateM.run_pure]
  cases (addElement o tag).run (flush o false r) <;> rfl

theorem run_forM_take_emptyTag {tag : Tag} {name : String} {attributes : Attributes}
    (hn : o.nameOf tag.name = name) (ha : attributesOf o tag = .ok attributes) :
    (forM [Token.emptyTag tag] (take o)).run {} = .ok ()
      { tree := Tree.founded {} { Node.element name with attributes } } := by
  rw [List.forM_cons, EStateM.run_bind, run_take_emptyTag, run_addElement, ha, hn]
  rfl

theorem run_take_endTag (name : String) :
    (take o (.endTag name)).run r =
      match (flush o true r).opened with
      | [] => .error (.unbalanced "" (o.nameOf name)) (flush o true r)
      | top :: rest =>
        if top.tag = o.nameOf name then .ok () { flush o true r with opened := rest }
        else
          .error (.unbalanced top.tag (o.nameOf name)) { flush o true r with opened := rest } := by
  simp only [take, EStateM.run_bind, EStateM.run_modify, EStateM.run_get]
  cases (flush o true r).opened with
  | nil => rfl
  | cons top rest =>
      simp only [EStateM.run_bind, EStateM.run_modify]
      by_cases h : top.tag = o.nameOf name
      · simp [h]
      · simp only [h, not_false_eq_true, ne_eq, if_true, if_false]
        rfl

theorem run_take_text (characters : String) :
    (take o (.text characters)).run r = .ok () { r with run := r.run ++ characters } := rfl

theorem run_take_reference (name : String) :
    (take o (.reference name)).run r =
      match Text.Reference.inData name.toList with
      | some c => .ok () { r with run := r.run.push c }
      | none => .error (.unknownReference name) r := by
  rw [take]
  cases Text.Reference.inData name.toList <;> rfl

theorem run_take_cdata (characters : String) :
    (take o (.cdata characters)).run r =
      .ok () (addLeaf (Node.cdata characters) (flush o false r)) := rfl

theorem run_take_comment (characters : String) :
    (take o (.comment characters)).run r =
      .ok () (addLeaf (Node.comment characters) (flush o false r)) := rfl

theorem run_take_instruction (target data : String) :
    (take o (.instruction target data)).run r =
      .ok () (addLeaf (Node.instruction target data) (flush o false r)) := rfl

/-- A declaration tells something about the document, and nothing about its tree. -/
theorem run_take_declaration (tag : Tag) :
    ∃ standalone, (take o (.declaration tag)).run r = .ok () { r with standalone } := by
  rw [take]
  split
  · exact ⟨_, rfl⟩
  · exact ⟨r.standalone, rfl⟩

theorem run_take_doctype : (take o .doctype).run r = .ok () r := rfl

/-- The end of a run leaves it empty, and may have made it a text. -/
theorem flush_cases (closing : Bool) :
    flush o closing r = { r with run := "" } ∨
      ∃ top rest, r.opened = top :: rest ∧ r.run ≠ "" ∧
        (!o.dropBlanks || top.preserves || !Text.isBlank r.run ||
          keepsBlank r.tree top.id closing) = true ∧
        flush o closing r =
          { r with run := "", tree := r.tree.adopt top.id (Node.text r.run) } := by
  rw [flush]
  cases hop : r.opened with
  | nil => exact .inl rfl
  | cons top rest =>
      by_cases hrun : r.run = ""
      · left
        simp only [hrun, if_true]
        rw [← hrun, ← hop]
      · simp only [hrun, if_false]
        split
        · next hk => exact .inr ⟨top, rest, rfl, hrun, hk, rfl⟩
        · exact .inl rfl

@[simp] theorem run_flush (closing : Bool) : (flush o closing r).run = "" := by
  rcases flush_cases o r closing with h | ⟨_, _, _, _, _, h⟩ <;> rw [h]

@[simp] theorem opened_flush (closing : Bool) : (flush o closing r).opened = r.opened := by
  rcases flush_cases o r closing with h | ⟨_, _, _, _, _, h⟩ <;> rw [h]

@[simp] theorem root_flush (closing : Bool) : (flush o closing r).tree.root = r.tree.root := by
  rcases flush_cases o r closing with h | ⟨_, _, _, _, _, h⟩ <;> simp [h]

@[simp] theorem run_addLeaf (content : Node) : (addLeaf content r).run = r.run := by
  rw [addLeaf]
  split <;> rfl

@[simp] theorem opened_addLeaf (content : Node) : (addLeaf content r).opened = r.opened := by
  rw [addLeaf]
  split <;> rfl

@[simp] theorem root_addLeaf (content : Node) : (addLeaf content r).tree.root = r.tree.root := by
  rw [addLeaf]
  split <;> simp

/-! ### A token that is taken -/

variable {o r} {r' : Reader}

theorem attributesOf_eq_ok {tag : Tag} {attributes : Attributes} :
    attributesOf o tag = .ok attributes ↔
      attributesFrom o Attributes.empty (tag.attributes true).items = .ok attributes ∧
        (tag.attributes true).flaw = none := by
  rw [attributesOf]
  cases attributesFrom o Attributes.empty (tag.attributes true).items with
  | error fault => simp [bind, Except.bind]
  | ok attributes' =>
      cases (tag.attributes true).flaw <;>
        simp [bind, Except.bind, pure, Except.pure, throw, throwThe, MonadExceptOf.throw]

theorem run_take_startTag_eq_ok {tag : Tag} :
    (take o (.startTag tag)).run r = .ok () r' ↔ ∃ preserves id r₁,
      preservesSpace tag (((flush o false r).opened.head?.map Opened.preserves).getD false) =
        .ok preserves ∧
      (addElement o tag).run (flush o false r) = .ok id r₁ ∧
      r' = { r₁ with opened := ⟨id, o.nameOf tag.name, preserves⟩ :: r₁.opened } := by
  rw [run_take_startTag]
  simp only
  cases preservesSpace tag (((flush o false r).opened.head?.map Opened.preserves).getD false) with
  | error fault => simp
  | ok preserves => cases (addElement o tag).run (flush o false r) <;> simp [eq_comm]

theorem run_take_emptyTag_eq_ok {tag : Tag} :
    (take o (.emptyTag tag)).run r = .ok () r' ↔
      ∃ id, (addElement o tag).run (flush o false r) = .ok id r' := by
  rw [run_take_emptyTag]
  cases (addElement o tag).run (flush o false r) <;> simp

theorem run_take_endTag_eq_ok {name : String} :
    (take o (.endTag name)).run r = .ok () r' ↔ ∃ top rest,
      (flush o true r).opened = top :: rest ∧ top.tag = o.nameOf name ∧
        r' = { flush o true r with opened := rest } := by
  rw [run_take_endTag]
  cases (flush o true r).opened with
  | nil => simp
  | cons top rest => by_cases h : top.tag = o.nameOf name <;> simp [h, eq_comm]

theorem run_take_reference_eq_ok {name : String} :
    (take o (.reference name)).run r = .ok () r' ↔ ∃ c,
      Text.Reference.inData name.toList = some c ∧ r' = { r with run := r.run.push c } := by
  rw [run_take_reference]
  cases Text.Reference.inData name.toList <;> simp [eq_comm]

theorem exists_of_run_take_declaration {tag : Tag}
    (hr : (take o (.declaration tag)).run r = .ok () r') : ∃ standalone, r' = { r with standalone } := by
  obtain ⟨standalone, hrun⟩ := run_take_declaration o r tag
  exact ⟨standalone, (EStateM.Result.ok.inj (hr.symm.trans hrun)).2⟩

theorem run_forM_take_cons_eq_ok {token : Token} {tokens : List Token} :
    (forM (token :: tokens) (take o)).run r = .ok () r' ↔ ∃ r₁,
      (take o token).run r = .ok () r₁ ∧ (forM tokens (take o)).run r₁ = .ok () r' := by
  rw [List.forM_cons, EStateM.run_bind]
  cases (take o token).run r <;> simp

end Take

/-! ### What is built -/

/-- The tree that is being read is proper, and its open elements are its spine. -/
structure Grown (r : Reader) : Prop where
  proper : Proper r.tree
  element : ∀ e ∈ r.opened, ∃ tag, r.tree.tag? e.id = some tag
  spine : Spine r.tree (r.opened.map Opened.id)

section Grown

variable {o : Options} {r r' : Reader}

theorem Grown.of_eq (h : Grown r) (ht : r'.tree = r.tree) (ho : r'.opened = r.opened) :
    Grown r' := by
  obtain ⟨proper, element, spine⟩ := h
  rw [← ht] at proper element spine
  rw [← ho] at element spine
  exact ⟨proper, element, spine⟩

theorem Grown.adopt (h : Grown r) {top : Opened} {rest : List Opened} (ho : r.opened = top :: rest)
    (content : Node) (ht : r'.tree = r.tree.adopt top.id content) (ho' : r'.opened = r.opened) :
    Grown r' := by
  obtain ⟨tag, htag⟩ := h.element top (ho ▸ List.mem_cons_self)
  have hs := h.spine
  rw [ho, List.map_cons] at hs
  refine ⟨ht ▸ h.proper.adopt htag content, fun e he => ?_, ?_⟩
  · obtain ⟨tag', htag'⟩ := h.element e (ho' ▸ he)
    exact ⟨tag', by rw [ht, tag?_adopt_of_lt (lt_size_of_tag? htag) content
      (lt_size_of_tag? htag'), htag']⟩
  · rw [ho', ho, List.map_cons, ht]
    exact hs.adopt content

theorem Grown.flush (h : Grown r) (closing : Bool) : Grown (flush o closing r) := by
  rcases flush_cases o r closing with he | ⟨top, rest, ho, _, _, he⟩
  · exact he ▸ h.of_eq rfl rfl
  · exact he ▸ h.adopt ho _ rfl rfl

theorem Grown.addLeaf (h : Grown r) (content : Node) : Grown (addLeaf content r) := by
  rw [Reader.addLeaf]
  split
  · exact h
  · next top rest ho => exact h.adopt ho content rfl rfl

theorem Grown.push (h : Grown r) {tag : Tag} {id : NodeId} (preserves : Bool)
    (hr : (addElement o tag).run r = .ok id r') :
    Grown { r' with opened := ⟨id, o.nameOf tag.name, preserves⟩ :: r'.opened } := by
  rw [run_addElement] at hr
  split at hr
  · simp at hr
  · next attributes _ =>
    split at hr
    · next top rest ho =>
      simp only [EStateM.Result.ok.injEq] at hr
      obtain ⟨rfl, rfl⟩ := hr
      obtain ⟨old, hold⟩ := h.element top (ho ▸ List.mem_cons_self)
      have hs := h.spine
      rw [ho, List.map_cons] at hs
      have hlt := lt_size_of_tag? hold
      refine ⟨h.proper.adopt hold _, fun e he => ?_, ?_⟩
      · rcases List.mem_cons.1 he with rfl | he
        · exact ⟨_, tag?_adopt_new hlt _⟩
        · obtain ⟨tag', htag'⟩ := h.element e he
          exact ⟨tag', by rw [tag?_adopt_of_lt hlt _ (lt_size_of_tag? htag'), htag']⟩
      · rw [List.map_cons, ho, List.map_cons]
        exact hs.push _
    · next ho =>
      split at hr
      · simp at hr
      · next hroot =>
        simp only [EStateM.Result.ok.injEq] at hr
        obtain ⟨rfl, rfl⟩ := hr
        have hs := h.spine
        rw [ho, List.map_nil] at hs
        have hsize : r.tree.nodes.size = 0 := by
          rcases hs with hs | hs
          · exact hs.2
          · simp [hroot] at hs
        refine ⟨h.proper.founded rfl hsize, fun e he => ?_, ?_⟩
        · rw [ho, List.mem_singleton] at he
          subst he
          exact ⟨_, tag?_founded_new _ _⟩
        · rw [ho]
          exact Spine.founded hsize _

theorem Grown.pop (h : Grown r) {top : Opened} {rest : List Opened} (ho : r.opened = top :: rest) :
    Grown { r with opened := rest } := by
  refine ⟨h.proper, fun e he => h.element e (ho ▸ List.mem_cons_of_mem top he), ?_⟩
  have hs := h.spine
  rw [ho, List.map_cons] at hs
  exact hs.pop

theorem Grown.take (h : Grown r) {token : Token} (hr : (take o token).run r = .ok () r') :
    Grown r' := by
  cases token with
  | startTag tag =>
      obtain ⟨preserves, id, r₁, -, hadd, rfl⟩ := run_take_startTag_eq_ok.1 hr
      exact (h.flush false).push _ hadd
  | emptyTag tag =>
      obtain ⟨id, hadd⟩ := run_take_emptyTag_eq_ok.1 hr
      exact (((h.flush false).push false hadd).pop rfl).of_eq rfl rfl
  | endTag name =>
      obtain ⟨top, rest, ho, -, rfl⟩ := run_take_endTag_eq_ok.1 hr
      exact (h.flush true).pop ho
  | text characters =>
      simp only [run_take_text, EStateM.Result.ok.injEq, true_and] at hr
      exact hr ▸ h.of_eq rfl rfl
  | reference name =>
      obtain ⟨c, -, rfl⟩ := run_take_reference_eq_ok.1 hr
      exact h.of_eq rfl rfl
  | cdata characters =>
      simp only [run_take_cdata, EStateM.Result.ok.injEq, true_and] at hr
      exact hr ▸ (h.flush false).addLeaf _
  | comment characters =>
      simp only [run_take_comment, EStateM.Result.ok.injEq, true_and] at hr
      exact hr ▸ (h.flush false).addLeaf _
  | instruction target data =>
      simp only [run_take_instruction, EStateM.Result.ok.injEq, true_and] at hr
      exact hr ▸ (h.flush false).addLeaf _
  | declaration tag =>
      obtain ⟨standalone, rfl⟩ := exists_of_run_take_declaration hr
      exact h.of_eq rfl rfl
  | doctype =>
      simp only [run_take_doctype, EStateM.Result.ok.injEq, true_and] at hr
      exact hr ▸ h

theorem grown_empty : Grown {} where
  proper :=
    { forest := forest_empty
      top := fun hr => by simp at hr
      element := fun hp => by simp [parentOf, Tree.get?] at hp }
  element := by simp
  spine := .inl ⟨rfl, rfl⟩

end Grown

/-! ### Whole readings -/

/-- A property that every token keeps holds at the end of the tokens. -/
theorem run_forM_take {o : Options} {I : Reader → Prop} {tokens : List Token}
    (step : ∀ token ∈ tokens, ∀ r r', I r → (take o token).run r = .ok () r' → I r')
    {r r' : Reader} (h : I r) (hr : (forM tokens (take o)).run r = .ok () r') : I r' := by
  induction tokens generalizing r with
  | nil =>
      obtain rfl : r = r' := by simpa using hr
      exact h
  | cons token tokens ih =>
      obtain ⟨r₁, hr₁, hr⟩ := run_forM_take_cons_eq_ok.1 hr
      exact ih (fun t ht => step t (List.mem_cons_of_mem token ht))
        (step token List.mem_cons_self r r₁ h hr₁) hr

theorem run_throw {α : Type} (fault : Document.Fault) (r : Reader) :
    (throw fault : Step α).run r = .error fault r := rfl

/-- A reading without fault takes all tokens, of a text without flaw, and closes all elements. -/
theorem run_takeAll_ok {o : Options} {size : Nat} {tokens : Readout Token.Spot Token}
    {r r' : Reader} :
    (takeAll o size tokens).run r = .ok () r' ↔
      (forM tokens.items (take o)).run r = .ok () r' ∧ tokens.flaw = none ∧ r'.opened = [] := by
  rw [takeAll, EStateM.run_bind]
  cases hr : (forM tokens.items (take o)).run r with
  | error fault r₁ => simp
  | ok u r₁ =>
      cases hf : tokens.flaw with
      | some spot => simp
      | none =>
          simp only [EStateM.run_bind, EStateM.run_get, EStateM.Result.ok.injEq, true_and]
          cases ho : r₁.opened with
          | cons top rest =>
              simp only [run_throw, reduceCtorEq, false_iff, not_and]
              rintro rfl
              simp [ho]
          | nil =>
              simp only [EStateM.run_pure, EStateM.Result.ok.injEq, true_and]
              constructor
              · rintro rfl
                exact ⟨rfl, ho⟩
              · exact And.left

end Reader

/-- What is computed to succeed with a property does so. -/
theorem exists_ok_of_any {ε α : Type} {e : Except ε α} {P : α → Prop} [DecidablePred P]
    (h : e.toOption.any (decide <| P ·) = true) : ∃ a, e = .ok a ∧ P a := by
  cases e with
  | error e => simp [Except.toOption] at h
  | ok a => exact ⟨a, rfl, of_decide_eq_true h⟩

theorem Document.parse_eq (o : Reader.Options) (text : String) : Document.parse o text =
    match (Reader.takeAll o (Text.byteLength (Token.withoutMark text.toList))
      (Token.scan (Token.withoutMark text.toList))).run {} with
    | .ok _ r => .ok r.document
    | .error fault _ => .error fault := by
  rw [parse, read]
  cases (Reader.takeAll o (Text.byteLength (Token.withoutMark text.toList))
    (Token.scan (Token.withoutMark text.toList))).run {} <;> rfl

theorem Document.parse_ok {o : Reader.Options} {text : String} {d : Document} :
    Document.parse o text = .ok d ↔ ∃ r : Reader,
      (Reader.takeAll o (Text.byteLength (Token.withoutMark text.toList))
        (Token.scan (Token.withoutMark text.toList))).run {} = .ok () r ∧ d = r.document := by
  rw [parse_eq]
  cases (Reader.takeAll o (Text.byteLength (Token.withoutMark text.toList))
    (Token.scan (Token.withoutMark text.toList))).run {} with
  | error fault r => simp
  | ok u r => simp [eq_comm]

theorem Document.parse_of_tokens {o : Reader.Options} {text : String} {tokens : List Token}
    {r : Reader} (hs : Token.scan (Token.withoutMark text.toList) = ⟨tokens, none⟩)
    (hr : (forM tokens (Reader.take o)).run {} = .ok () r) (ho : r.opened = []) :
    Document.parse o text = .ok r.document :=
  Document.parse_ok.2 ⟨r, Reader.run_takeAll_ok.2 ⟨hs ▸ hr, by rw [hs], ho⟩, rfl⟩

theorem Document.parse_error_of_tokens {o : Reader.Options} {text : String} {tokens : List Token}
    {fault : Document.Fault} {r : Reader}
    (hs : (Token.scan (Token.withoutMark text.toList)).items = tokens)
    (hr : (forM tokens (Reader.take o)).run {} = .error fault r) :
    Document.parse o text = .error fault := by
  rw [parse_eq, Reader.takeAll]
  simp only [List.forM_eq_forM, EStateM.run_bind, hs, hr]

/-- A document that is read is what the last token leaves, with all elements closed. -/
theorem Document.exists_of_parse {o : Reader.Options} {text : String} {d : Document}
    (h : Document.parse o text = .ok d) {I : Reader → Prop} (start : I {})
    (step : ∀ token ∈ (Token.scan (Token.withoutMark text.toList)).items, ∀ r r', I r →
      (Reader.take o token).run r = .ok () r' → I r') :
    ∃ r : Reader, I r ∧ r.opened = [] ∧ d = r.document := by
  obtain ⟨r, hr, rfl⟩ := Document.parse_ok.1 h
  obtain ⟨hr, _, ho⟩ := Reader.run_takeAll_ok.1 hr
  exact ⟨r, Reader.run_forM_take step start hr, ho, rfl⟩

theorem Document.proper_of_parse {o : Reader.Options} {text : String} {d : Document}
    (h : Document.parse o text = .ok d) : d.tree.Proper := by
  obtain ⟨r, hr, _, rfl⟩ := Document.exists_of_parse h Reader.grown_empty
    fun _ _ _ _ hr hrun => hr.take hrun
  exact hr.proper

end BookMarkup
