import BookMarkup.Proofs.Document.Acceptance
import BookMarkup.Proofs.Document.RoundTrip

/-!
Documents with `xml:space`, read with the prefixes kept. Such a document is read again from its
written form exactly if no element is padded and no blank stands where it is dropped. The reader asks
the tag, where the value is still written with references, and the element has the value without
them. Unless a tag tells `default` by references alone, space is preserved wherever the reader has
preserved it, and no blank is dropped.
-/

namespace BookMarkup

/-! ### Tags and their elements -/

namespace Tag.Attribute

/-- A key that was used before is not used again where keys are compared. -/
theorem first?_of_next? {size : Nat} {first? : String → Option Nat} {rest rest' : List Char}
    {a : Attribute} (h : next? size first? rest = .ok (some (a, rest'))) : first? a.key = none := by
  rw [next?] at h
  split at h
  · simp at h
  · next c cs _ =>
    cases ha : afterEquals size (cs.dropWhile inKey) with
    | error flaw => simp [ha, bind, Except.bind] at h
    | ok after =>
        simp only [ha, bind, Except.bind] at h
        split at h
        · simp [throw, throwThe, MonadExceptOf.throw] at h
        · next hf =>
          cases hq : quotedValue size after with
          | error flaw => simp [hq] at h
          | ok p =>
              simp only [hq, pure, Except.pure, Except.ok.injEq, Option.some.injEq,
                Prod.mk.injEq] at h
              rw [← h.1]
              exact hf

theorem nodup_readFrom {size count : Nat} {earlier : List Attribute} {rest : List Char}
    (he : (earlier.map key).Nodup) : ((readFrom size true count earlier rest).items.map key).Nodup := by
  have hreverse (earlier : List Attribute) (he : (earlier.map key).Nodup) :
      (earlier.reverse.map key).Nodup := by
    rw [List.map_reverse]
    exact List.nodup_reverse.2 he
  induction count generalizing earlier rest with
  | zero => exact hreverse earlier he
  | succ count ih =>
      rw [readFrom]
      simp only [if_true]
      split
      · exact hreverse earlier he
      · exact hreverse earlier he
      · next a rest' hn =>
        refine ih (List.nodup_cons.2 ⟨fun hm => ?_, he⟩)
        obtain ⟨e, hem, hek⟩ := List.mem_map.1 hm
        have hnone := List.find?_eq_none.1 (Option.map_eq_none_iff.1 (first?_of_next? hn)) e hem
        simp [hek] at hnone

end Tag.Attribute

/-- The tag does not tell by references alone that space is not preserved. -/
def Tag.Candid (tag : Tag) : Prop :=
  ∀ a ∈ (tag.attributes false).items, a.key = "xml:space" →
    (Text.unescape a.value).toOption = some "default" → a.value = "default"

instance (tag : Tag) : Decidable tag.Candid :=
  inferInstanceAs (Decidable (∀ a ∈ (tag.attributes false).items, a.key = "xml:space" →
    (Text.unescape a.value).toOption = some "default" → a.value = "default"))

namespace Reader

open BookMarkup.Tree

variable {o : Options} (hs : o.stripPrefixes = false)

include hs

theorem get?_attributesFrom {items : List Tag.Attribute} {earlier a : Attributes}
    (hd : (items.map Tag.Attribute.key).Nodup) (h : attributesFrom o earlier items = .ok a)
    (key : String) : a.get? key = match items.find? (·.key == key) with
      | some item => (Text.unescape item.value).toOption
      | none => earlier.get? key := by
  induction items generalizing earlier with
  | nil =>
      obtain rfl : earlier = a := Except.ok.inj h
      rfl
  | cons item items ih =>
      obtain ⟨hnew, hd⟩ := List.nodup_cons.1 hd
      have hname : o.nameOf item.key = item.key := by
        rw [Options.nameOf, hs]
        rfl
      rw [attributesFrom, hs, Bool.false_and, hname] at h
      simp only [Bool.false_eq_true, if_false] at h
      cases hu : Text.unescape item.value with
      | error flaw => simp [hu] at h
      | ok value =>
          simp only [hu] at h
          rw [ih hd h]
          by_cases hk : item.key = key
          · have hnone : items.find? (·.key == key) = none := by
              rw [List.find?_eq_none]
              intro e he
              simpa using fun hek => hnew (List.mem_map.2 ⟨e, he, hek.trans hk.symm⟩)
            rw [hnone, List.find?_cons_of_pos (by simpa using hk), ← hk]
            simp only [hu, Except.toOption, Attributes.get?_insert_self]
          · rw [List.find?_cons_of_neg (by simpa using hk),
              Attributes.get?_insert_of_ne (Ne.symm hk)]

/-- An element has the values of its tag, without references. -/
theorem get?_attributesOf {tag : Tag} {a : Attributes} (h : attributesOf o tag = .ok a)
    {key : String} {found : Option String} (hf : tag.lookup key = .ok found) :
    a.get? key = found.bind fun value => (Text.unescape value).toOption := by
  obtain ⟨hall, hflaw⟩ := attributesOf_eq_ok.1 h
  have hsame : tag.attributes false = tag.attributes true :=
    Tag.Attribute.readFrom_of_strict hflaw
  have hnodup : ((tag.attributes true).items.map Tag.Attribute.key).Nodup :=
    Tag.Attribute.nodup_readFrom List.nodup_nil
  rw [Tag.lookup, Readout.find?, hsame, hflaw] at hf
  rw [get?_attributesFrom hs hnodup hall key]
  cases hfind : (tag.attributes true).items.find? (·.key == key) with
  | none =>
      obtain rfl : none = found := by simpa [hfind, Except.map] using hf
      rfl
  | some item =>
      obtain rfl : some item.value = found := by simpa [hfind, Except.map] using hf
      rfl

omit hs

/-! ### Where space is preserved -/

theorem exists_of_lookup {tag : Tag} {key value : String} (h : tag.lookup key = .ok (some value)) :
    ∃ a, (a ∈ (tag.attributes false).items ∧ a.key = key) ∧ a.value = value := by
  rw [Tag.lookup, Readout.find?] at h
  cases hf : (tag.attributes false).items.find? (·.key == key) with
  | none => cases hflaw : (tag.attributes false).flaw <;> simp [hf, hflaw, Except.map] at h
  | some a =>
      have hvalue : a.value = value := by simpa [hf, Except.map] using h
      exact ⟨a, ⟨List.mem_of_find?_eq_some hf, by simpa using List.find?_some hf⟩, hvalue⟩

/-- What is told by an element tells of its tag, unless the tag tells `default` by references. -/
theorem space?_of_preservesSpace (hs : o.stripPrefixes = false) {tag : Tag} (content : Node)
    {inherited : Bool} (hc : tag.Candid) (ha : attributesOf o tag = .ok content.attributes)
    (hp : preservesSpace tag inherited = .ok true) :
    content.space? = some true ∨ content.space? = none ∧ inherited = true := by
  rw [preservesSpace] at hp
  cases hf : tag.lookup "xml:space" with
  | error flaw => simp [hf] at hp
  | ok found =>
      have hv := get?_attributesOf hs ha hf
      rw [Node.space?, hv]
      cases found with
      | none =>
          simp only [hf, Except.ok.injEq] at hp
          exact .inr ⟨rfl, hp⟩
      | some raw =>
          have hdefault : (Text.unescape raw).toOption = some "default" → raw = "default" := by
            obtain ⟨item, hitem, rfl⟩ := exists_of_lookup hf
            exact hc item hitem.1 hitem.2
          by_cases hpreserve : raw = "preserve"
          · left
            have hplain : (Text.unescape "preserve").toOption = some "preserve" := by decide +kernel
            rw [hpreserve, Option.bind_some, hplain]
            rfl
          · have hne : raw ≠ "default" := by
              rintro rfl
              simp [hf] at hp
            have hinherited : inherited = true := by simpa [hf, hpreserve, hne] using hp
            rw [Option.bind_some]
            split
            · exact .inl rfl
            · next hd => exact absurd (hdefault hd) hne
            · exact .inr ⟨rfl, hinherited⟩

theorem space?_adopt {t : Tree} {p : NodeId} (hp : p < t.nodes.size) (content : Node) (i : NodeId) :
    (t.adopt p content).space? i = if i = t.nodes.size then content.space? else t.space? i := by
  rw [space?, get?_adopt hp, space?]
  split
  · rfl
  · split
    · cases t.get? i <;> rfl
    · rfl

theorem steady_preserved : Steady Tree.Preserved := by
  intro t p content i hp h
  have hold {i : NodeId} (hi : i < t.nodes.size) :
      (t.adopt p content).space? i = t.space? i ∧ (t.adopt p content).parentOf i = t.parentOf i := by
    rw [space?_adopt hp, parentOf_adopt hp, if_neg (Nat.ne_of_lt hi), if_neg (Nat.ne_of_lt hi)]
    exact ⟨rfl, rfl⟩
  induction h with
  | own hs =>
      obtain ⟨n, hn, _⟩ := Option.bind_eq_some_iff.1 hs
      exact .own ((hold (lt_size_of_get? hn)).1.trans hs)
  | around hs hq _ ih =>
      have hsame := hold (lt_size_of_parentOf hq)
      exact .around (hsame.1.trans hs) (hsame.2.trans hq) ih

theorem heeds_of_candid (hs : o.stripPrefixes = false) {token : Token}
    (hc : ∀ tag ∈ token.tag?, tag.Candid) : Heeds o Tree.Preserved token := by
  rintro tag rfl r r' id hgrown hscope hp hr
  rw [run_addElement] at hr
  split at hr
  · simp at hr
  · next attributes ha =>
    let content := { Node.element (o.nameOf tag.name) with attributes }
    have hspace := space?_of_preservesSpace hs content (hc tag rfl) ha hp
    split at hr
    · next top rest ho =>
      simp only [EStateM.Result.ok.injEq] at hr
      obtain ⟨rfl, rfl⟩ := hr
      have htop := hgrown.top_lt ho
      have hnew : (r.tree.adopt top.id content).space? r.tree.nodes.size = content.space? := by
        rw [space?_adopt htop, if_pos rfl]
      rcases hspace with hown | ⟨hnone, hinherited⟩
      · exact .own (hnew.trans hown)
      · rw [ho] at hinherited hscope
        refine .around (hnew.trans hnone) (p := top.id) ?_ (steady_preserved _ _ _ _ htop
          (hscope top List.mem_cons_self hinherited))
        rw [parentOf_adopt htop, if_pos rfl]
    · next ho =>
      split at hr
      · simp at hr
      · simp only [EStateM.Result.ok.injEq] at hr
        obtain ⟨rfl, rfl⟩ := hr
        have hown : content.space? = some true := hspace.resolve_right fun h => by simp [ho] at h
        have hget : (r.tree.founded content).get? r.tree.nodes.size =
            (r.tree.plant content).get? r.tree.nodes.size := rfl
        refine .own ?_
        rw [space?, hget, get?_plant, if_pos rfl]
        exact hown

end Reader

/-! ### Documents -/

/-- No tag tells by references alone that space is not preserved. -/
def Document.Candid (text : String) : Prop :=
  ∀ token ∈ (Token.scan (Token.withoutMark text.toList)).items, ∀ tag ∈ token.tag?, tag.Candid

instance (text : String) : Decidable (Document.Candid text) :=
  inferInstanceAs (Decidable (∀ token ∈ (Token.scan (Token.withoutMark text.toList)).items,
    ∀ tag ∈ token.tag?, tag.Candid))

section Parse

variable {o : Reader.Options} {text : String} {d : Document} (h : Document.parse o text = .ok d)

include h

theorem Document.xmlns_of_parse : d.xmlns = none := by
  obtain ⟨r, _, rfl⟩ := Document.parse_ok.1 h
  rfl

/-- Blanks are dropped again only where a tag was not candid. -/
theorem Document.not_dropped_of_parse (hd : o.dropBlanks = true) (hs : o.stripPrefixes = false)
    (hc : Document.Candid text) (i : NodeId) : ¬ d.tree.Dropped i := by
  have hplaced : ∀ p, Tree.Placed (d.tree.Preserved p) d.tree (d.tree.childrenOf p) :=
    Document.placed_of_parse h (.inl hd) Reader.steady_preserved fun token ht =>
      Reader.heeds_of_candid hs (hc token ht)
  exact Tree.not_dropped (Document.proper_of_parse h).forest hplaced i

end Parse

def Node.Writable (n : Node) : Prop :=
  Token.IsQName n.name ∧ ∀ name ∈ n.attributes.names, Token.IsQName name

instance (n : Node) : Decidable n.Writable :=
  inferInstanceAs (Decidable (_ ∧ _))

theorem Node.Writable.under {n : Node} (h : n.Writable) {o : Reader.Options}
    (hs : o.stripPrefixes = false) : n.NamedUnder o := by
  have hname (name : String) : o.nameOf name = name := by
    rw [Reader.Options.nameOf, hs]
    rfl
  exact ⟨h.1, hname n.name, fun name hm => ⟨h.2 name hm, hname name, by rw [hs, Bool.false_and]⟩⟩

/-- With prefixes kept, a document that was read is read again from its written form, whatever the
layout, exactly if no element is spread over lines in which space is preserved, and no blank text
stands where it is dropped. -/
theorem Document.parse_print_iff {text : String} {d : Document}
    (h : Document.parse { stripPrefixes := false } text = .ok d)
    (hn : ∀ n ∈ d.tree.nodes.toList, n.isElement = true → n.Writable) (l : Layout) :
    (∃ d', Document.parse { stripPrefixes := false } (l.print d) = .ok d' ∧ d'.tree = d.tree) ↔
      ∀ i, ¬ d.tree.Padded i ∧ ¬ d.tree.Dropped i := by
  have hentire : d.tree.Entire := Document.entire_of_parse h
  have hnamed : d.tree.NamedUnder { stripPrefixes := false } := fun n hm he =>
    (hn n hm he).under rfl
  have haltered (i : NodeId) : ¬ d.tree.Padded i ∧ ¬ d.tree.Dropped i ↔ ¬ d.tree.Altered i :=
    not_or.symm
  simp only [haltered]
  rcases Document.parse_print_cases rfl l hentire hnamed (.inl (Document.xmlns_of_parse h)) with
    ⟨hread, hun⟩ | ⟨⟨i, haltered⟩, hother⟩
  · exact ⟨fun _ => hun, fun _ => ⟨_, hread, rfl⟩⟩
  · refine ⟨?_, fun hun => absurd haltered (hun i)⟩
    rintro ⟨d', hd', htree⟩
    exact absurd htree (hother d' hd')

/-- A prefix, and a blank that is preserved between elements, on one line with the text beside it. -/
theorem Document.parse_print_preserved :
    ∃ d, Document.parse { stripPrefixes := false }
        "<x:a><b xml:space='preserve'><c/> <d/>t</b></x:a>" = .ok d ∧
      (∀ n ∈ d.tree.nodes.toList, n.isElement = true → n.Writable) ∧
      ∃ d', Document.parse { stripPrefixes := false } (({} : Layout).print d) = .ok d' ∧
        d'.tree = d.tree := by
  let d : Document :=
    { tree :=
        { nodes := #[{ Node.element "x:a" with children := [1] },
            { Node.element "b" with
              id := 1, parent := some 0, children := [2, 3, 4, 5],
              attributes := Attributes.empty.insert "xml:space" "preserve" },
            { Node.element "c" with id := 2, parent := some 1 },
            { Node.text " " with id := 3, parent := some 1 },
            { Node.element "d" with id := 4, parent := some 1 },
            { Node.text "t" with id := 5, parent := some 1 }]
          root := some 0 } }
  have h : Document.parse { stripPrefixes := false }
      "<x:a><b xml:space='preserve'><c/> <d/>t</b></x:a>" = .ok d := by decide +kernel
  have hc : Document.Candid "<x:a><b xml:space='preserve'><c/> <d/>t</b></x:a>" := by
    decide +kernel
  have hn : ∀ n ∈ d.tree.nodes.toList, n.isElement = true → n.Writable := by decide +kernel
  have htop : d.tree.parentOf 0 = none := rfl
  have hleaf : ∀ i < 6, 2 ≤ i → d.tree.childrenOf i = [] := by decide
  have hpadded : ∀ i, ¬ d.tree.Padded i := by
    intro i hp
    match i with
    | 0 =>
        cases hp.preserved with
        | own hs => exact absurd hs (by decide)
        | around _ hp _ => simp [htop] at hp
    | 1 => exact absurd (hp.spread 1 (.refl 1)) (by decide)
    | i + 2 =>
        by_cases hi : i + 2 < 6
        · exact hp.nonempty (hleaf (i + 2) hi (Nat.le_add_left 2 i))
        · exact hp.nonempty (Tree.childrenOf_eq_nil_of_size_le (Nat.le_of_not_lt hi))
  have hdropped := Document.not_dropped_of_parse h rfl rfl hc
  exact ⟨d, h, hn, (Document.parse_print_iff h hn {}).2 fun i => ⟨hpadded i, hdropped i⟩⟩

/-- An element is spread over lines though its space is preserved, and the lines are read as texts. -/
theorem Document.parse_print_padded :
    ∃ d, Document.parse { stripPrefixes := false } "<a xml:space=\"preserve\"><b/></a>" = .ok d ∧
      (∀ n ∈ d.tree.nodes.toList, n.isElement = true → n.Writable) ∧
      ∃ d', Document.parse { stripPrefixes := false }
          (({ declaration := false } : Layout).print d) = .ok d' ∧ d'.tree ≠ d.tree := by
  let d : Document :=
    { tree :=
        { nodes := #[{ Node.element "a" with
              children := [1], attributes := Attributes.empty.insert "xml:space" "preserve" },
            { Node.element "b" with id := 1, parent := some 0 }]
          root := some 0 } }
  have h : Document.parse { stripPrefixes := false } "<a xml:space=\"preserve\"><b/></a>" = .ok d := by
    decide +kernel
  have hn : ∀ n ∈ d.tree.nodes.toList, n.isElement = true → n.Writable := by decide +kernel
  obtain ⟨d', hd', hne⟩ : ∃ d', Document.parse { stripPrefixes := false }
      (({ declaration := false } : Layout).print d) = .ok d' ∧ d'.tree ≠ d.tree :=
    exists_ok_of_any (by decide +kernel)
  exact ⟨d, h, hn, d', hd', hne⟩

-- A blank is lost where `default` was told by a reference, which is written without it.
example :
    let text := "<a xml:space='preserve'>x<b xml:space='d&#101;fault'><c/> <d/></b></a>"
    (Document.parse { stripPrefixes := false } text).toOption.any (fun d =>
      (Document.parse { stripPrefixes := false } (({} : Layout).print d)).toOption.any fun d' =>
        d'.tree.nodes.size + 1 == d.tree.nodes.size) = true := by
  decide +kernel

end BookMarkup
