import BookMarkup.Proofs.Document.Tidy

/-!
Texts that differ in the prefixes of names and in the declarations of namespaces alone. Reading leaves
both out of start tags, end tags and attributes, so that two such texts, if they can be read, are read
as one document: token by token the two readers are the same. Only `xml:space` is looked up by its
name with the prefix.
-/

namespace BookMarkup

open Reader

/-- What reading keeps of attributes as written: the declarations of namespaces are left out, and the
others come under their local names. -/
def Tag.Attribute.locals (items : List Tag.Attribute) : List (String × String) :=
  (items.filter (!declaresNamespace ·.key)).map fun a => (localName a.key, a.value)

structure Tag.Akin (tag tag' : Tag) : Prop where
  name : localName tag.name = localName tag'.name
  attributes : Tag.Attribute.locals (tag.attributes true).items =
    Tag.Attribute.locals (tag'.attributes true).items

inductive Token.Akin : Token → Token → Prop
  | same (token : Token) : Akin token token
  | startTag {tag tag' : Tag} (h : tag.Akin tag') : Akin (.startTag tag) (.startTag tag')
  | emptyTag {tag tag' : Tag} (h : tag.Akin tag') : Akin (.emptyTag tag) (.emptyTag tag')
  | endTag {name name' : String} (h : localName name = localName name') :
      Akin (.endTag name) (.endTag name')

/-- Texts that fall into the same tokens but for prefixes and declarations. -/
def Document.Akin (text text' : String) : Prop :=
  List.Forall₂ Token.Akin (Token.scan (Token.withoutMark text.toList)).items
    (Token.scan (Token.withoutMark text'.toList)).items

namespace Reader

def insertWritten (earlier : Attributes) (e : String × String) :
    Except Document.Fault Attributes :=
  match Text.unescape e.2 with
  | .error flaw => .error (.value flaw)
  | .ok value => .ok (earlier.insert e.1 value)

variable {o : Options} (hs : o.stripPrefixes = true)

include hs

theorem nameOf_eq_localName (name : String) : o.nameOf name = localName name := by
  rw [Options.nameOf, if_pos hs]

/-! ### Tags -/

theorem attributesFrom_eq_foldlM (earlier : Attributes) (items : List Tag.Attribute) :
    attributesFrom o earlier items = (Tag.Attribute.locals items).foldlM insertWritten earlier := by
  fun_induction attributesFrom o earlier items with
  | case1 => rfl
  | case2 earlier a rest hd ih =>
      have hd : declaresNamespace a.key = true := by simpa [hs] using hd
      rw [ih, Tag.Attribute.locals, Tag.Attribute.locals, List.filter_cons_of_neg (by simp [hd])]
  | case3 earlier a rest hd flaw hu =>
      have hd : declaresNamespace a.key = false := by simpa [hs] using hd
      rw [Tag.Attribute.locals, List.filter_cons_of_pos (by simp [hd]), List.map_cons,
        List.foldlM_cons, insertWritten, hu]
      rfl
  | case4 earlier a rest hd value hu ih =>
      have hd : declaresNamespace a.key = false := by simpa [hs] using hd
      rw [ih, nameOf_eq_localName hs, Tag.Attribute.locals, Tag.Attribute.locals,
        List.filter_cons_of_pos (by simp [hd]), List.map_cons, List.foldlM_cons, insertWritten, hu]
      rfl

section Akin

variable {tag tag' : Tag} (h : tag.Akin tag')

include h

theorem attributesOf_of_akin {a a' : Attributes} (ha : attributesOf o tag = .ok a)
    (ha' : attributesOf o tag' = .ok a') : a = a' := by
  have hfrom := (attributesOf_eq_ok.1 ha).1
  have hfrom' := (attributesOf_eq_ok.1 ha').1
  rw [attributesFrom_eq_foldlM hs] at hfrom hfrom'
  exact Except.ok.inj (hfrom.symm.trans (h.attributes ▸ hfrom'))

theorem addElement_of_akin {r r₁ r₂ : Reader} {i j : NodeId}
    (hr₁ : (addElement o tag).run r = .ok i r₁) (hr₂ : (addElement o tag').run r = .ok j r₂) :
    i = j ∧ r₁ = r₂ := by
  rw [run_addElement] at hr₁ hr₂
  cases ha : attributesOf o tag with
  | error fault => simp [ha] at hr₁
  | ok a =>
      cases ha' : attributesOf o tag' with
      | error fault => simp [ha'] at hr₂
      | ok a' =>
          obtain rfl := attributesOf_of_akin hs h ha ha'
          rw [ha, nameOf_eq_localName hs] at hr₁
          rw [ha', nameOf_eq_localName hs, ← h.name] at hr₂
          exact EStateM.Result.ok.inj (hr₁.symm.trans hr₂)

end Akin

/-! ### Tokens -/

/-- Readers that are the same stay so by tokens that differ in prefixes and declarations. -/
theorem take_of_akin {token token' : Token} (h : token.Akin token')
    (hp : ∀ tag ∈ token.tag?, tag.Unspaced) (hp' : ∀ tag ∈ token'.tag?, tag.Unspaced)
    {r r₁ r₂ : Reader} (hr₁ : (take o token).run r = .ok () r₁)
    (hr₂ : (take o token').run r = .ok () r₂) : r₁ = r₂ := by
  cases h with
  | same => exact (EStateM.Result.ok.inj (hr₁.symm.trans hr₂)).2
  | @startTag tag tag' h =>
      obtain ⟨preserves, i, r₁, hspace, hadd, rfl⟩ := run_take_startTag_eq_ok.1 hr₁
      obtain ⟨preserves', j, r₂, hspace', hadd', rfl⟩ := run_take_startTag_eq_ok.1 hr₂
      obtain ⟨rfl, rfl⟩ := addElement_of_akin hs h hadd hadd'
      -- Neither tag tells what to do with space, so that it is preserved as around them.
      rw [preservesSpace_eq (hp tag rfl) hspace, preservesSpace_eq (hp' tag' rfl) hspace',
        nameOf_eq_localName hs, nameOf_eq_localName hs, h.name]
  | @emptyTag tag tag' h =>
      obtain ⟨i, hadd⟩ := run_take_emptyTag_eq_ok.1 hr₁
      obtain ⟨j, hadd'⟩ := run_take_emptyTag_eq_ok.1 hr₂
      exact (addElement_of_akin hs h hadd hadd').2
  | endTag h =>
      obtain ⟨top, rest, ho, -, rfl⟩ := run_take_endTag_eq_ok.1 hr₁
      obtain ⟨top', rest', ho', -, rfl⟩ := run_take_endTag_eq_ok.1 hr₂
      rw [(List.cons.inj (ho.symm.trans ho')).2]

theorem forM_take_of_akin {tokens tokens' : List Token} (h : List.Forall₂ Token.Akin tokens tokens')
    (hp : ∀ token ∈ tokens, ∀ tag ∈ token.tag?, tag.Unspaced)
    (hp' : ∀ token ∈ tokens', ∀ tag ∈ token.tag?, tag.Unspaced)
    {r r₁ r₂ : Reader} (hr₁ : (forM tokens (take o)).run r = .ok () r₁)
    (hr₂ : (forM tokens' (take o)).run r = .ok () r₂) : r₁ = r₂ := by
  induction h generalizing r with
  | nil => exact (EStateM.Result.ok.inj (hr₁.symm.trans hr₂)).2
  | cons h _ ih =>
      rw [List.forall_mem_cons] at hp hp'
      obtain ⟨r', htake, hr₁⟩ := run_forM_take_cons_eq_ok.1 hr₁
      obtain ⟨r'', htake', hr₂⟩ := run_forM_take_cons_eq_ok.1 hr₂
      obtain rfl := take_of_akin hs h hp.1 hp'.1 htake htake'
      exact ih hp.2 hp'.2 hr₁ hr₂

end Reader

/-- Where reading leaves out prefixes, texts that differ in them and in declarations are read as one
document. -/
theorem Document.eq_of_akin {o : Reader.Options} (hs : o.stripPrefixes = true)
    {text text' : String} (h : Akin text text') (hp : Unspaced text) (hp' : Unspaced text')
    {d d' : Document} (hd : parse o text = .ok d) (hd' : parse o text' = .ok d') : d = d' := by
  obtain ⟨r, hr, rfl⟩ := parse_ok.1 hd
  obtain ⟨r', hr', rfl⟩ := parse_ok.1 hd'
  rw [Reader.forM_take_of_akin hs h hp hp' (Reader.run_takeAll_ok.1 hr).1
    (Reader.run_takeAll_ok.1 hr').1]

end BookMarkup
