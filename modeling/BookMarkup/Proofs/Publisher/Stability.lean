import BookMarkup.Proofs.Document.Compacted
import BookMarkup.Proofs.Publisher.Intake
import BookMarkup.Proofs.Publisher.Standalone
import BookMarkup.Proofs.Rule.Legible
import BookMarkup.Proofs.Rule.Repeated

/-!
Publishing what is published already. A text that is handed back is handed back again. A text that
was printed from a document is read as a copy of the tree that the rules left, so that it stays as it
is if the rules have nothing to do in this tree and all of it is read again.
-/

namespace BookMarkup.Publisher

open Layout Rule Text BookMarkup.Tree

/-- Conditions under which all of the document is read again from what is printed of it: no two texts
stand side by side and no blank ones where they are dropped, the names can be written, and neither is
the value of the declaration written with references nor the mark that is erased written anywhere
else. They are sufficient and no more. Two texts side by side, which are read again as one, may print
the same the second time. -/
structure Regained (l : Layout) (d : Document) : Prop where
  settled : ∀ i, d.tree.Live i → Settled d.tree (d.tree.childrenOf i)
  named : ∀ i n, d.tree.Live i → d.tree.get? i = some n → n.isElement = true → n.Named
  unescaped : ∀ value ∈ d.standalone, escapeValue value = value.toList
  unmarked : ¬ refusedMark <:+: l.writtenTree d.tree d.xmlns

section Print

variable {s : Settings} {d : Document}

theorem isFragment_print : isFragment (print s d) = false := by
  by_contra hf
  obtain ⟨before, c, rest, ht, hb, hc⟩ := exists_of_isFragment (Bool.not_eq_false _ ▸ hf)
  rw [print_toList_cleared, Reader.writtenDeclaration_append] at ht
  cases before with
  | nil =>
      simp only [List.nil_append, List.cons.injEq, true_and] at ht
      simp [← ht.1] at hc
  | cons x before =>
      obtain ⟨rfl, -⟩ := List.cons.inj ht
      exact absurd (hb '<' List.mem_cons_self) (by decide)

theorem print_eq_of_copied {e : Document} {f : NodeId → NodeId} (hc : Copied f d.tree e.tree)
    (hf : Forest d.tree) (hf' : Forest e.tree) (hx : e.xmlns = d.xmlns)
    (hs : e.standalone = d.standalone.filter (· ≠ "no")) : print s e = print s d := by
  rw [← String.toList_inj, print_toList_cleared, print_toList_cleared, hx, hs, Option.filter_filter,
    hc.writtenTree hf hf']
  simp

theorem Regained.parse_of_print (h : Regained { indent := s.indent } d) (hp : Proper d.tree)
    (hl : Legible d.tree) : Document.parse {} (print s d) = .ok
      { tree := d.tree.compact, standalone := d.standalone.filter (· ≠ "no") } := by
  have hread := Document.parse_print_of_readable { indent := s.indent }
    (d := { d with standalone := d.standalone.filter (· ≠ "no") }) ⟨hp, hl, h.settled, h.named⟩
  have hvalue : ∀ value ∈ d.standalone.filter (· ≠ "no"),
      String.ofList (escapeValue value) = value := fun value hv => by
    rw [h.unescaped value (Option.mem_filter_iff.1 hv).1, String.ofList_toList]
  rw [(print_eq_iff s d).2 h.unmarked, hread, if_pos rfl, Option.map_congr hvalue, Option.map_id']

/-- What is printed of a document at rest is published as it is. -/
theorem publish_print (h : Regained { indent := s.indent } d) (hp : Proper d.tree)
    (hl : Legible d.tree) (hr : Rested d.tree) (hx : d.xmlns = some s.xmlns)
    (hroot : ∀ root tag, d.tree.root = some root → d.tree.tag? root = some tag →
      isChapterLike tag = false)
    (hout : s.finalMark.toList <+: (print s d).toList ∨ withoutDoctypes (print s d) = print s d) :
    publish s (print s d) = .ok (print s d) := by
  by_cases hm : s.finalMark.toList <+: (print s d).toList
  · rw [publish, intake_of_final hm]
  · have hin := intake_of_bare hm isFragment_print (hout.resolve_left hm) (h.parse_of_print hp hl)
    have hc := hp.forest.copied_compact
    cases hroot' : d.tree.root with
    | none =>
        rw [publish, hin.1 (by rw [hc.root, hroot', Option.map_none])]
    | some root =>
        have hplace : d.tree.compact.root = some (d.tree.place root) := by
          rw [hc.root, hroot', Option.map_some]
        have hsame : d.tree.compact.update (d.tree.place root) calledChapter = d.tree.compact := by
          obtain ⟨tag, ht, ⟨hlike, -⟩ | ⟨-, hu⟩⟩ := update_calledChapter hp.compact.forest hplace
          · rw [hc.tag? hp.forest ⟨root, hroot', .refl root⟩] at ht
            exact absurd hlike (by simp [hroot root tag hroot' ht])
          · exact hu
        obtain ⟨n, u, f, hrun, hu, hcopy⟩ :=
          (hr.copied hc hp hp.compact).exists_run hp.compact
        rw [publish, hin.2 _ hplace]
        simp only [takenIn, hsame, hrun]
        exact congrArg _ <|
          print_eq_of_copied (hc.trans hp.forest hcopy) hp.forest hu.forest hx.symm rfl

end Print

/-- If no reference of the document has a target name, publishing the published text again changes
nothing, provided that the first run leaves nothing for the rules to move, that its document is
`Regained`, and that the published text shows no doctype or begins with the mark of a final one. The
conditions are sufficient, not necessary: `<a>x<colspec/>y</a>` leaves two texts side by side, and is
published again unchanged all the same. -/
theorem publish_published (s : Settings) {text out : String} (h : publish s text = .ok out)
    (hlinks : ∀ d, intake s text = .ok (.document d) → ∀ x, d.tree.Live x →
      d.tree.tag? x = some "xref" → d.tree.attribute? x "linkend" = none)
    (hrest : ∀ d n t', intake s text = .ok (.document d) →
      (runAll bookRules).run d.tree = .ok n t' →
      Undisturbed t' ∧ Regained { indent := s.indent } { d with tree := t' })
    (hout : s.finalMark.toList <+: out.toList ∨ withoutDoctypes out = out) :
    publish s out = .ok out := by
  rw [publish] at h
  split at h
  · simp at h
  · next final hin =>
    obtain rfl := Except.ok.inj h
    rw [publish, intake_of_handed_back hin hout]
  · next d hin =>
    split at h
    · simp at h
    · next n t' hrun =>
      obtain rfl := Except.ok.inj h
      obtain ⟨hp, hl, hx, hroot⟩ := of_intake_document hin
      obtain ⟨hu, hregained⟩ := hrest d n t' hin hrun
      obtain ⟨_, st, _⟩ := exists_stages hp hrun
      refine publish_print hregained st.proper (legible_of_run_bookRules hl hrun)
        (st.rested hu (hlinks d hin)) hx (fun root tag hr ht => ?_) hout
      -- No rule makes an element a preface or an appendix, so that it was one before.
      by_contra hlike
      have htag : tag = "preface" ∨ tag = "appendix" := by
        simpa [isChapterLike, or_iff_not_imp_left] using hlike
      obtain ⟨_, ht₀⟩ := st.of_tag? ⟨root, hr, .refl root⟩ ht (by
        rcases htag with rfl | rfl <;> decide)
      have hr₀ : d.tree.root = some root :=
        st.opening.relabelled.root ▸ st.thinned_renamed.root root hr
      exact hlike (hroot root tag hr₀ ht₀)

/-- The paragraph around a quotation stays where it is if that is no part. -/
theorem publish_published_quotation : ∃ out, publish {} "<a><blockquote/></a>" = .ok out ∧
    publish {} out = .ok out := by
  obtain ⟨out, hpublish, hout⟩ : ∃ out, publish {} "<a><blockquote/></a>" = .ok out ∧
      withoutDoctypes out = out := exists_ok_of_any (by decide +kernel)
  let d : Document :=
    { tree := ⟨#[{ Node.element "a" with children := [1] },
        { Node.element "blockquote" with id := 1, parent := some 0 }], some 0⟩ }
  let u : Tree :=
    ⟨#[{ Node.element "a" with children := [2] },
      { Node.element "blockquote" with id := 1, parent := some 2 },
      { Node.element "para" with id := 2, parent := some 0, children := [1] }], some 0⟩
  have hparse : Document.parse {} "<a><blockquote/></a>" = .ok d := by decide +kernel
  have hin : intake {} "<a><blockquote/></a>" = .ok (.document
      { d with xmlns := some ({} : Settings).xmlns }) := by decide +kernel
  obtain ⟨d₀, n₀, u₀, hparse₀, hrun₀, rfl⟩ := exists_run_of_rewritten? "<a><blockquote/></a>"
    (P := (· = u)) (by decide +kernel)
  obtain rfl := Except.ok.inj (hparse.symm.trans hparse₀)
  have hread : ∀ n ∈ d.tree.nodes.toList, n.name ≠ "xref" := by decide
  have hleft : ∀ n ∈ u.nodes.toList, n.isElement = true ∧ n.Named ∧
      n.name ∉ ["part", "appendix", "calloutlist"] := by decide +kernel
  have hunmarked : ¬ refusedMark <:+: ({} : Layout).writtenTree u (some ({} : Settings).xmlns) := by
    decide +kernel
  have hnode {t : Tree} {i : NodeId} {n : Node} (hn : t.get? i = some n) : n ∈ t.nodes.toList :=
    Array.mem_toList_iff.2 (Array.mem_of_getElem? hn)
  have htag {i : NodeId} {tag : String} (ht : u.tag? i = some tag) :
      tag ∉ ["part", "appendix", "calloutlist"] := by
    obtain ⟨n, hn, -, rfl⟩ := exists_of_tag? ht
    exact (hleft n (hnode hn)).2.2
  have htext (i : NodeId) : u.text? i = none := text?_eq_none_iff.2 fun n hn => by
    have he := (hleft n (hnode hn)).1
    cases hk : n.kind <;> simp_all [Node.isElement, Node.isText]
  refine ⟨out, hpublish, publish_published {} hpublish (fun d' hd' x _ hx => ?_)
    (fun d' n t' hd' hrun => ?_) (.inr hout)⟩
  · obtain rfl := Intake.document.inj (Except.ok.inj (hin.symm.trans hd'))
    obtain ⟨n, hn, -, hname⟩ := exists_of_tag? hx
    exact absurd hname (hread n (hnode hn))
  · obtain rfl := Intake.document.inj (Except.ok.inj (hin.symm.trans hd'))
    obtain rfl := (EStateM.Result.ok.inj (hrun₀.symm.trans hrun)).2
    constructor
    · exact
        { tidied := fun p _ ht => absurd (by simp) (htag ht)
          hoisted := fun a p _ ht => absurd (by simp) (htag ht)
          attached := fun c p prev tag _ ht => absurd (by simp) (htag ht) }
    · exact
        { settled := fun i _ =>
            { apart := fun i j _ => .inl (htext i)
              blank := fun i _ v hv => by simp [htext i] at hv }
          named := fun i n _ hn _ => (hleft n (hnode hn)).2.1
          unescaped := by simp [d]
          unmarked := hunmarked }

/-- The paragraph around a quotation in a part goes into the introduction when the text is published
again. -/
theorem publish_of_quotation_in_part : ∃ out out',
    publish {} "<part><blockquote/></part>" = .ok out ∧ publish {} out = .ok out' ∧ out' ≠ out := by
  obtain ⟨out, hout, hagain⟩ : ∃ out, publish {} "<part><blockquote/></part>" = .ok out ∧
      (publish {} out).toOption.any (decide <| · ≠ out) = true :=
    exists_ok_of_any (by decide +kernel)
  obtain ⟨out', hout', hne⟩ := exists_ok_of_any hagain
  exact ⟨out, out', hout, hout', hne⟩

end BookMarkup.Publisher
