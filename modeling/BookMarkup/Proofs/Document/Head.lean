import BookMarkup.Proofs.Attributes
import BookMarkup.Proofs.Document.Reading
import BookMarkup.Proofs.Token.Attribute
import BookMarkup.Proofs.Tree.Space

/-!
The head of an element as it is written: reading it gives the name and the attributes again, if
reading keeps the names, and what the attribute `xml:space` tells. The namespace that is written for
the root is left out in reading, where prefixes are.
-/

namespace BookMarkup

theorem Attributes.put_of_not_mem {name : String} {es : List (String × String)}
    (h : name ∉ es.map Prod.fst) (value : String) : put name value es = es ++ [(name, value)] := by
  induction es with
  | nil => rfl
  | cons e es ih =>
      rw [List.map_cons, List.mem_cons, not_or] at h
      rw [put, if_neg (Ne.symm h.1), ih h.2, List.cons_append]

namespace Reader

open Token Text

/-! ### Names without a prefix -/

section IsName

variable {name : String} (h : IsName name)

include h

theorem nameOf_isName (o : Options) : o.nameOf name = name := by
  have hnil : name.toList.dropWhile (· != ':') = [] := by
    rw [List.dropWhile_eq_nil_iff]
    intro c hc
    simpa using h.ne_colon hc
  rw [Options.nameOf, localName, hnil, ite_self]

theorem ne_of_colon_mem {key : String} (hk : ':' ∈ key.toList) : name ≠ key := by
  rintro rfl
  exact h.ne_colon hk rfl

theorem not_declaresNamespace (hne : name ≠ "xmlns") : declaresNamespace name = false := by
  have hnone : after? "xmlns:".toList name.toList = none := by
    cases ha : after? "xmlns:".toList name.toList with
    | none => rfl
    | some rest =>
        have hm : ':' ∈ name.toList := by
          rw [after?_eq_some_iff.1 ha]
          simp
        exact absurd rfl (h.ne_colon hm)
  rw [declaresNamespace, hnone]
  simpa using hne

end IsName

/-- An attribute with this name is kept in reading, with its name as it is. -/
def Options.Keeps (o : Options) (name : String) : Prop :=
  o.nameOf name = name ∧ (o.stripPrefixes && declaresNamespace name) = false

/-- Attributes that are kept are added one after the other. -/
theorem attributesFrom_written (o : Options) (earlier : Attributes) {items : List Tag.Attribute}
    {entries : List (String × String)}
    (hw : items.map Tag.Attribute.written =
      entries.map fun (name, value) => (name, String.ofList (escapeValue value)))
    (hn : ∀ e ∈ entries, o.Keeps e.1)
    (hd : ((earlier.entries ++ entries).map Prod.fst).Nodup) :
    ∃ a, attributesFrom o earlier items = .ok a ∧ a.entries = earlier.entries ++ entries := by
  induction items generalizing earlier entries with
  | nil =>
      obtain rfl : entries = [] := List.map_eq_nil_iff.1 hw.symm
      exact ⟨earlier, rfl, (List.append_nil _).symm⟩
  | cons item items ih =>
      cases entries with
      | nil => simp at hw
      | cons e entries =>
          obtain ⟨name, value⟩ := e
          obtain ⟨hitem, hw⟩ := List.cons.inj hw
          obtain ⟨hkey, hvalue⟩ := Prod.mk.inj hitem
          obtain ⟨hname, hkept⟩ := hn _ List.mem_cons_self
          have hnew : name ∉ earlier.entries.map Prod.fst := by
            rw [List.map_append, List.nodup_append] at hd
            exact fun hm => hd.2.2 name hm name (by simp) rfl
          have hput : (earlier.insert name value).entries = earlier.entries ++ [(name, value)] :=
            Attributes.put_of_not_mem hnew value
          obtain ⟨a, ha, he⟩ := ih (earlier.insert name value) hw
            (fun e he => hn e (List.mem_cons_of_mem _ he)) (by simpa [hput] using hd)
          refine ⟨a, ?_, ?_⟩
          · rw [attributesFrom, hkey, hkept, hvalue, unescape_escapeValue, hname]
            exact ha
          · rw [he, hput, List.append_assoc, List.singleton_append]

end Reader

/-! ### Heads -/

/-- The names of an element can be written, and none of them declares a namespace. -/
def Node.Named (n : Node) : Prop :=
  Token.IsName n.name ∧ ∀ name ∈ n.attributes.names, Token.IsName name ∧ name ≠ "xmlns"

instance (n : Node) : Decidable n.Named :=
  inferInstanceAs (Decidable (_ ∧ _))

structure Node.NamedUnder (o : Reader.Options) (n : Node) : Prop where
  tag : Token.IsQName n.name
  kept : o.nameOf n.name = n.name
  attributes : ∀ name ∈ n.attributes.names, Token.IsQName name ∧ o.Keeps name

theorem Node.Named.under {n : Node} (h : n.Named) (o : Reader.Options) : n.NamedUnder o where
  tag := h.1.isQName
  kept := Reader.nameOf_isName h.1 o
  attributes name hm := by
    obtain ⟨hname, hne⟩ := h.2 name hm
    refine ⟨hname.isQName, Reader.nameOf_isName hname o, ?_⟩
    rw [Reader.not_declaresNamespace hname hne, Bool.and_false]

theorem Node.Named.space?_eq_none {n : Node} (h : n.Named) : n.space? = none := by
  have hnone : n.attributes.get? "xml:space" = none := by
    rw [Attributes.get?, List.lookup_eq_none_iff]
    intro e he
    have hne := Reader.ne_of_colon_mem (h.2 e.1 (List.mem_map_of_mem he)).1
      (show ':' ∈ "xml:space".toList by simp)
    simpa using Ne.symm hne
  rw [space?, hnone]

def Node.headAttributes (n : Node) (xmlns : Option String) : List (String × String) :=
  (xmlns.map fun value => ("xmlns", value)).toList ++ n.attributes.entries

def Node.head (n : Node) (xmlns : Option String) : Tag where
  name := n.name
  body := Token.writtenAttributes (n.headAttributes xmlns)

theorem Node.writtenHead_eq (n : Node) (xmlns : Option String) :
    Layout.writtenHead n xmlns = '<' :: (n.name.toList ++ (n.head xmlns).body) := by
  rw [Layout.writtenHead, Node.head, Node.headAttributes, Token.writtenAttributes,
    List.flatMap_append]
  cases xmlns <;> simp

/-- As a value is written it tells a plain word exactly if it is this word. -/
theorem Text.ofList_escapeValue_eq_iff (word : String)
    (hw : String.ofList (escapeValue word) = word) (value : String) :
    String.ofList (escapeValue value) = word ↔ value = word := by
  constructor
  · intro h
    have hu := unescape_escapeValue value
    rw [h, ← hw, unescape_escapeValue] at hu
    exact (Except.ok.inj hu).symm
  · rintro rfl
    exact hw

section Named

variable {o : Reader.Options} {n : Node} (h : n.NamedUnder o) {xmlns : Option String}
  (hx : xmlns = none ∨ o.stripPrefixes = true)

include h

theorem Node.NamedUnder.isQName (xmlns : Option String) :
    ∀ a ∈ n.headAttributes xmlns, Token.IsQName a.1 := by
  intro a ha
  rw [Node.headAttributes] at ha
  rcases List.mem_append.1 ha with ha | ha
  · obtain ⟨value, _, rfl⟩ := Option.map_eq_some_iff.1 (Option.mem_toList.1 ha)
    exact ⟨by simp, by simp [Text.isMarkupBlank]⟩
  · exact (h.attributes a.1 (List.mem_map_of_mem ha)).1

include hx

theorem Node.NamedUnder.nodup : ((n.headAttributes xmlns).map Prod.fst).Nodup := by
  cases xmlns with
  | none => exact n.attributes.distinct
  | some value =>
      refine List.nodup_cons.2 ⟨fun hm => ?_, n.attributes.distinct⟩
      have hdeclares : Reader.declaresNamespace "xmlns" = true := rfl
      have hkept := (h.attributes _ hm).2.2
      rw [hdeclares, hx.resolve_left (by simp)] at hkept
      simp at hkept

theorem Node.NamedUnder.attributesOf_head :
    Reader.attributesOf o (n.head xmlns) = .ok n.attributes := by
  obtain ⟨hflaw, hitems⟩ :=
    Tag.attributes_written n.name (h.isQName xmlns) (h.nodup hx) true
  have hread {items : List Tag.Attribute} (hw : items.map Tag.Attribute.written =
      n.attributes.entries.map fun (name, value) =>
        (name, String.ofList (Text.escapeValue value))) :
      Reader.attributesFrom o Attributes.empty items = .ok n.attributes := by
    obtain ⟨a, ha, he⟩ := Reader.attributesFrom_written o Attributes.empty hw
      (fun e he => (h.attributes e.1 (List.mem_map_of_mem he)).2) n.attributes.distinct
    exact ha.trans (congrArg Except.ok (Attributes.ext_entries he))
  have hall : Reader.attributesFrom o Attributes.empty ((n.head xmlns).attributes true).items =
      .ok n.attributes := by
    cases xmlns with
    | none => exact hread hitems
    | some value =>
        obtain ⟨item, items, hcons, hitem, hw⟩ := List.map_eq_cons_iff.1 hitems
        have hkey : item.key = "xmlns" := (Prod.mk.inj hitem).1
        have hdeclares : Reader.declaresNamespace "xmlns" = true := rfl
        rw [Node.head, hcons, Reader.attributesFrom, hkey, hdeclares, hx.resolve_left (by simp)]
        exact hread hw
  have hnone : ((n.head xmlns).attributes true).flaw = none := hflaw
  simp only [Reader.attributesOf, hall, hnone]
  rfl

theorem Node.NamedUnder.preservesSpace_head (inherited : Bool) :
    Reader.preservesSpace (n.head xmlns) inherited = .ok (n.space?.getD inherited) := by
  have hlookup : (n.head xmlns).lookup "xml:space" =
      .ok ((n.attributes.get? "xml:space").map fun value =>
        String.ofList (Text.escapeValue value)) := by
    cases hv : n.attributes.get? "xml:space" with
    | none =>
        refine Tag.lookup_written n.name (h.isQName xmlns) (h.nodup hx) fun hm => ?_
        obtain ⟨a, ha, hk⟩ := List.mem_map.1 hm
        rcases List.mem_append.1 ha with ha | ha
        · obtain ⟨value, _, rfl⟩ := Option.map_eq_some_iff.1 (Option.mem_toList.1 ha)
          simp at hk
        · simpa [hk] using List.lookup_eq_none_iff.1 hv a ha
    | some value =>
        obtain ⟨before, after, he, _⟩ := List.lookup_eq_some_iff.1 hv
        refine Tag.lookup_written_of_mem n.name (h.isQName xmlns) (h.nodup hx) ?_
        rw [Node.headAttributes, he]
        simp
  have hp := Text.ofList_escapeValue_eq_iff "preserve" (by decide +kernel)
  have hd := Text.ofList_escapeValue_eq_iff "default" (by decide +kernel)
  rw [Reader.preservesSpace, hlookup, Node.space?]
  cases n.attributes.get? "xml:space" with
  | none => rfl
  | some value =>
      by_cases h₁ : value = "preserve"
      · rw [Option.map_some, (hp value).2 h₁, h₁]
        rfl
      · by_cases h₂ : value = "default"
        · rw [Option.map_some, (hd value).2 h₂, h₂]
          rfl
        · have h₃ := mt (hp value).1 h₁
          have h₄ := mt (hd value).1 h₂
          simp [h₁, h₂, h₃, h₄]

end Named

end BookMarkup
