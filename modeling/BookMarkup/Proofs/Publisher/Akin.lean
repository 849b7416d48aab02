import BookMarkup.Proofs.Document.Akin
import BookMarkup.Proofs.Publisher.Intake

/-!
Publishing texts that differ in the prefixes of names and in the declarations of namespaces alone. As
they hold the same document, the same is published of them, unless one is taken in for what it is as a
text: because of its start, of a doctype shown in it, or because it has no root.
-/

namespace BookMarkup.Publisher

/-- A text that is taken in for the document that it holds. -/
structure Bare (s : Settings) (text : String) : Prop where
  mark : ¬ s.finalMark.toList <+: text.toList
  fragment : isFragment text = false
  doctype : ¬ "<!DOCTYPE".toList <:+: text.toList

theorem Bare.intake_eq {s : Settings} {text : String} (h : Bare s text) {d : Document}
    {root : NodeId} (hp : Document.parse {} text = .ok d) (hr : d.tree.root = some root) :
    intake s text = .ok (.document (takenIn s d root)) :=
  (intake_of_bare h.mark h.fragment (withoutDoctypes_eq_self h.doctype) hp).2 root hr

/-- Two texts whose tokens differ only in prefixes and in declarations of namespaces, neither with an
attribute named `xml:space`, are read as the same document, if both can be read. If it has a root, the
same is published of them, with the same fault if there is one. -/
theorem publish_of_akin {text text' : String} (h : Document.Akin text text')
    (hs : Document.Unspaced text) (hs' : Document.Unspaced text') {d d' : Document}
    (hp : Document.parse {} text = .ok d) (hp' : Document.parse {} text' = .ok d') :
    d = d' ∧ ∀ s : Settings, d.tree.root ≠ none → Bare s text → Bare s text' →
      publish s text = publish s text' := by
  obtain rfl := Document.eq_of_akin rfl h hs hs' hp hp'
  refine ⟨rfl, fun s hroot hb hb' => ?_⟩
  obtain ⟨root, hr⟩ := Option.ne_none_iff_exists'.1 hroot
  rw [publish, publish, hb.intake_eq hp hr, hb'.intake_eq hp' hr]

/-- Two attributes fall together when their prefixes are left out. -/
theorem publish_of_prefixed :
    let text := "<x:a xmlns:x='u' x:b='1' b='2'><x:c/></x:a>"
    let text' := "<a b='1' y:b='2' xmlns='v'><y:c/></a>"
    Document.Akin text text' ∧ (∃ d, Document.parse {} text = .ok d ∧
      Document.parse {} text' = .ok d ∧ d.tree.attribute? 0 "b" = some "2") ∧
    publish {} text = publish {} text' := by
  intro text text'
  have hscan : (Token.scan (Token.withoutMark text.toList)).items =
      [.startTag ⟨"x:a", " xmlns:x='u' x:b='1' b='2'".toList⟩, .emptyTag ⟨"x:c", []⟩,
        .endTag "x:a"] := by decide +kernel
  have hscan' : (Token.scan (Token.withoutMark text'.toList)).items =
      [.startTag ⟨"a", " b='1' y:b='2' xmlns='v'".toList⟩, .emptyTag ⟨"y:c", []⟩,
        .endTag "a"] := by decide +kernel
  have h : Document.Akin text text' := by
    rw [Document.Akin, hscan, hscan']
    refine .cons (.startTag ⟨?_, ?_⟩) (.cons (.emptyTag ⟨?_, ?_⟩) (.cons (.endTag ?_) .nil))
    all_goals decide +kernel
  obtain ⟨d, hp, hd⟩ : ∃ d, Document.parse {} text = .ok d ∧
      (d.tree.root ≠ none ∧ d.tree.attribute? 0 "b" = some "2") :=
    exists_ok_of_any (by decide +kernel)
  obtain ⟨d', hp', -⟩ : ∃ d', Document.parse {} text' = .ok d' ∧ d'.tree.root ≠ none :=
    exists_ok_of_any (by decide +kernel)
  obtain ⟨rfl, hpublish⟩ := publish_of_akin h (by decide +kernel) (by decide +kernel) hp hp'
  exact ⟨h, ⟨d, hp, hp', hd.2⟩, hpublish {} hd.1
    ⟨by decide +kernel, by decide +kernel, by decide +kernel⟩
    ⟨by decide +kernel, by decide +kernel, by decide +kernel⟩⟩

end BookMarkup.Publisher
