import BookMarkup.Proofs.Document.Reading
import BookMarkup.Proofs.Token.Leaf

/-!
Nodes as reading makes them: elements and texts, which are not empty, and what is made of one token
and read back from what is written for it. Each token keeps this of the whole store.
-/

namespace BookMarkup

inductive ReadContent : Node → Prop
  | element (name : String) (attributes : Attributes) :
      ReadContent { Node.element name with attributes }
  | text {value : String} (hv : value ≠ "") : ReadContent (Node.text value)
  | leaf {token : Token} {content : Node} (hl : token.leaf? = some content)
      (hf : token.Faithful content) : ReadContent content

theorem isText_of_leaf? {token : Token} {content : Node} (hl : token.leaf? = some content) :
    content.isText = false := by
  cases token <;> simp only [Token.leaf?, Option.some.injEq, reduceCtorEq] at hl
  all_goals
    subst hl
    rfl

theorem isElement_of_leaf? {token : Token} {content : Node} (hl : token.leaf? = some content) :
    content.isElement = false := by
  cases token <;> simp only [Token.leaf?, Option.some.injEq, reduceCtorEq] at hl
  all_goals
    subst hl
    rfl

theorem ReadContent.attributes_eq {content : Node} (h : ReadContent content)
    (he : content.isElement = false) : content.attributes = Attributes.empty := by
  cases h with
  | element => simp [Node.isElement, Node.element] at he
  | text => rfl
  | @leaf token _ hl _ =>
      cases token <;> simp only [Token.leaf?, Option.some.injEq, reduceCtorEq] at hl
      all_goals
        subst hl
        rfl

/-- The two nodes say the same, wherever they stand. -/
structure Node.Alike (n c : Node) : Prop where
  kind : n.kind = c.kind
  name : n.name = c.name
  value : n.value = c.value
  attributes : n.attributes = c.attributes

section Alike

variable {n c : Node} (h : n.Alike c)

include h

theorem Node.Alike.isElement_eq : n.isElement = c.isElement := by
  rw [isElement, isElement, h.kind]

theorem Node.Alike.isText_eq : n.isText = c.isText := by
  rw [isText, isText, h.kind]

end Alike

namespace Tree

def Legible (t : Tree) : Prop :=
  ∀ i n, t.contentOf i = some n → ∃ c, ReadContent c ∧ n = { c.content with id := i }

section Legible

variable {t t' : Tree}

theorem Legible.exists_alike (h : Legible t) {i : NodeId} {n : Node} (hn : t.get? i = some n) :
    ∃ c, ReadContent c ∧ n.Alike c ∧ n.content = { c.content with id := i } := by
  obtain ⟨c, hc, heq⟩ := h i n.content (by rw [contentOf, hn, Option.map_some])
  have hkind := congrArg Node.kind heq
  have hname := congrArg Node.name heq
  have hvalue := congrArg Node.value heq
  have hattributes := congrArg Node.attributes heq
  exact ⟨c, hc, ⟨hkind, hname, hvalue, hattributes⟩, heq⟩

theorem Legible.of_contentOf (h : Legible t) (hc : ∀ i, t'.contentOf i = t.contentOf i) :
    Legible t' :=
  fun i n hn => h i n ((hc i).symm.trans hn)

theorem legible_empty : Legible {} :=
  fun i n hn => by simp [contentOf, get?] at hn

theorem Legible.plant (h : Legible t) {content : Node} (hc : ReadContent content) :
    Legible (t.plant content) := by
  intro i n hn
  rw [contentOf_plant] at hn
  split at hn
  · next hi => exact ⟨content, hc, hi ▸ (Option.some.inj hn).symm⟩
  · exact h i n hn

theorem Legible.adopt (h : Legible t) {p : NodeId} (hp : p < t.nodes.size) {content : Node}
    (hc : ReadContent content) : Legible (t.adopt p content) :=
  (h.plant hc).of_contentOf fun i => by rw [contentOf_adopt hp, contentOf_plant]

/-- A label may be changed into one that can be read. -/
theorem Legible.update (h : Legible t) {f : Node → Node} (hf : Node.Relabels f) {id : NodeId}
    (hc : ∀ c, ReadContent c → t.contentOf id = some { c.content with id := id } →
      ∃ c', ReadContent c' ∧ f { c.content with id := id } = { c'.content with id := id }) :
    Legible (t.update id f) := by
  intro i n hn
  rw [contentOf_update hf] at hn
  split at hn
  · next hi =>
    subst hi
    obtain ⟨m, hm, rfl⟩ := Option.map_eq_some_iff.1 hn
    obtain ⟨c, hread, rfl⟩ := h id m hm
    exact hc c hread hm
  · exact h i n hn

theorem Legible.update_name (h : Legible t) {id : NodeId} {old : String}
    (ht : t.tag? id = some old) (tag : String) :
    Legible (t.update id fun n => { n with name := tag }) := by
  refine h.update (Node.relabels_name tag) fun c hc hid => ?_
  rw [tag?_eq, hid, Option.bind_some] at ht
  cases hc with
  | element name attributes => exact ⟨_, .element tag attributes, rfl⟩
  | text => simp [Node.tag?, Node.isElement, Node.content, Node.text] at ht
  | leaf hl _ =>
      have he := isElement_of_leaf? hl
      rw [Node.isElement] at he
      simp [Node.tag?, Node.isElement, Node.content, he] at ht

theorem Legible.update_attributes (h : Legible t) (id : NodeId) {f : Attributes → Attributes}
    (hf : f Attributes.empty = Attributes.empty ∨ ∃ tag, t.tag? id = some tag) :
    Legible (t.update id fun n => { n with attributes := f n.attributes }) := by
  refine h.update (Node.relabels_attributes f) fun c hc hid => ?_
  by_cases he : c.isElement
  · cases hc with
    | element name attributes => exact ⟨_, .element name (f attributes), rfl⟩
    | text => simp [Node.isElement, Node.text] at he
    | leaf hl _ => simp [isElement_of_leaf? hl] at he
  · have hnone := hc.attributes_eq (by simpa using he)
    have hempty : f Attributes.empty = Attributes.empty := by
      refine hf.resolve_right ?_
      rintro ⟨tag, ht⟩
      rw [tag?_eq, hid, Option.bind_some] at ht
      rw [Node.isElement] at he
      simp [Node.tag?, Node.isElement, Node.content, he] at ht
    refine ⟨c, hc, ?_⟩
    simp [Node.content, hnone, hempty]

end Legible

end Tree

namespace Reader

open BookMarkup.Tree

variable {o : Options} {r r' : Reader}

theorem Grown.top_lt (h : Grown r) {top : Opened} {rest : List Opened}
    (ho : r.opened = top :: rest) : top.id < r.tree.nodes.size := by
  obtain ⟨tag, ht⟩ := h.element top (ho ▸ List.mem_cons_self)
  exact lt_size_of_tag? ht

theorem Grown.legible_flush (hg : Grown r) (h : Legible r.tree) (closing : Bool) :
    Legible (Reader.flush o closing r).tree := by
  rcases Reader.flush_cases o r closing with he | ⟨top, rest, ho, hrun, _, he⟩
  · rw [he]
    exact h
  · rw [he]
    exact h.adopt (hg.top_lt ho) (.text hrun)

theorem Grown.legible_addLeaf (hg : Grown r) (h : Legible r.tree) {content : Node}
    (hc : ReadContent content) : Legible (Reader.addLeaf content r).tree := by
  rw [Reader.addLeaf]
  split
  · exact h
  · next ho => exact h.adopt (hg.top_lt ho) hc

theorem Grown.legible_addElement (hg : Grown r) (h : Legible r.tree) {tag : Tag} {id : NodeId}
    (hr : (Reader.addElement o tag).run r = .ok id r') : Legible r'.tree := by
  rw [run_addElement] at hr
  split at hr
  · simp at hr
  · next attributes _ =>
    split at hr
    · next ho =>
      simp only [EStateM.Result.ok.injEq] at hr
      obtain ⟨_, rfl⟩ := hr
      exact h.adopt (hg.top_lt ho) (.element _ attributes)
    · split at hr
      · simp at hr
      · simp only [EStateM.Result.ok.injEq] at hr
        obtain ⟨_, rfl⟩ := hr
        exact (h.plant (.element _ attributes)).of_contentOf fun _ => rfl

theorem run_take_leaf (o : Options) (r : Reader) {token : Token} {content : Node}
    (hl : token.leaf? = some content) :
    (take o token).run r = .ok () (addLeaf content (flush o false r)) := by
  cases token <;> simp only [Token.leaf?, Option.some.injEq, reduceCtorEq] at hl
  all_goals
    subst hl
    rfl

theorem Grown.legible_take (hg : Grown r) (h : Legible r.tree) {token : Token}
    (hf : ∀ content, token.leaf? = some content → token.Faithful content)
    (hr : (Reader.take o token).run r = .ok () r') : Legible r'.tree := by
  have leaf {content : Node} (hl : token.leaf? = some content) : Legible r'.tree := by
    simp only [run_take_leaf o r hl, EStateM.Result.ok.injEq, true_and] at hr
    exact hr ▸ (hg.flush false).legible_addLeaf (hg.legible_flush h false) (.leaf hl (hf content hl))
  cases token with
  | startTag tag =>
      obtain ⟨preserves, id, r₁, -, hadd, rfl⟩ := run_take_startTag_eq_ok.1 hr
      have hl : Legible r₁.tree :=
        (hg.flush false).legible_addElement (hg.legible_flush h false) hadd
      exact hl
  | emptyTag tag =>
      obtain ⟨id, hadd⟩ := run_take_emptyTag_eq_ok.1 hr
      exact (hg.flush false).legible_addElement (hg.legible_flush h false) hadd
  | endTag name =>
      obtain ⟨top, rest, -, -, rfl⟩ := run_take_endTag_eq_ok.1 hr
      exact hg.legible_flush h true
  | text characters =>
      simp only [run_take_text, EStateM.Result.ok.injEq, true_and] at hr
      exact hr ▸ h
  | reference name =>
      obtain ⟨c, -, rfl⟩ := run_take_reference_eq_ok.1 hr
      exact h
  | cdata characters => exact leaf rfl
  | comment characters => exact leaf rfl
  | instruction target data => exact leaf rfl
  | declaration tag =>
      obtain ⟨standalone, rfl⟩ := exists_of_run_take_declaration hr
      exact h
  | doctype =>
      simp only [run_take_doctype, EStateM.Result.ok.injEq, true_and] at hr
      exact hr ▸ h

end Reader

namespace Document

/-- What is made of one token of a text can be read back. -/
theorem faithful_of_scan {text : String} {token : Token}
    (ht : token ∈ (Token.scan (Token.withoutMark text.toList)).items) (content : Node)
    (hl : token.leaf? = some content) : token.Faithful content :=
  Token.forall_scanFrom (P := fun token => ∀ content, token.leaf? = some content →
    token.Faithful content) (fun _ _ _ _ hn _ hl => Token.faithful_of_next hn hl) _ [] [] _ (by simp)
    token ht content hl

/-- Reading makes nodes as it makes them, whatever it leaves out. -/
theorem legible_of_parse {o : Reader.Options} {text : String} {d : Document}
    (h : parse o text = .ok d) : d.tree.Legible := by
  obtain ⟨r, ⟨_, hr⟩, _, rfl⟩ := exists_of_parse h
    (I := fun r => Reader.Grown r ∧ r.tree.Legible) ⟨Reader.grown_empty, Tree.legible_empty⟩
    fun token ht _ _ hr hrun =>
      ⟨hr.1.take hrun, hr.1.legible_take hr.2 (faithful_of_scan ht) hrun⟩
  exact hr

end Document

end BookMarkup
