import BookMarkup.Proofs.Document.Acceptance
import BookMarkup.Proofs.Document.Legible
import BookMarkup.Proofs.Tree.Planted
import BookMarkup.Publisher.Publish
import Mathlib.Data.List.Infix

/-!
Taking in a text. Doctypes are taken out of the text as it stands, before anything is known of its
markup. As long as what is taken out are doctypes, the document is read as from the whole text; but a
comment that shows one loses it. A text in which none is measured is taken in as it is read, and one
that is handed back is handed back again.
-/

namespace BookMarkup.Publisher

open Reader Text Token BookMarkup.Tree

/-- From token to token, a doctype is measured as the doctype that it is, with nothing after it, and
in all other tokens nothing is measured as one, wherever the measuring begins. -/
inductive Measured : List Char → Prop
  | nil : Measured []
  | doctype {c : Char} {cs rest : List Char} (hn : next c cs = .ok (.doctype, rest))
      (hw : (c :: cs).drop (doctypeWidth (c :: cs)) = rest) (h : Measured rest) :
      Measured (c :: cs)
  | other {c : Char} {taken rest : List Char} {token : Token}
      (hn : next c (taken ++ rest) = .ok (token, rest))
      (hw : ∀ s, s <:+ c :: taken → s ≠ [] → doctypeWidth (s ++ rest) = 0) (h : Measured rest) :
      Measured (c :: (taken ++ rest))

section Reads

variable {o : Options} {names : List String} {text : List Char} {r r' : Reader}

/-- Without its doctypes the text is read as before. -/
theorem reads_without_doctypes (hm : Measured text) (h : Reads o names text r r') :
    Reads o names (eraseMatches doctypeWidth text) r r' := by
  induction hm generalizing names r with
  | nil => exact h
  | @doctype c cs rest hn hw _ ih =>
      obtain ⟨names', r₁, ho, hr, h⟩ := h.exists_of_next hn
      obtain rfl := Except.ok.inj ho
      rw [run_take_doctype, EStateM.Result.ok.injEq] at hr
      obtain ⟨_, rfl⟩ := hr
      have hwidth : doctypeWidth (c :: cs) ≠ 0 := by
        intro hz
        have hl := length_next hn
        rw [← hw, hz, List.drop_zero, List.length_cons] at hl
        omega
      rw [eraseMatches_drop hwidth, hw]
      exact ih h
  | @other c taken rest token hn hw _ ih =>
      obtain ⟨names', r₁, ho, hr, h⟩ := h.exists_of_next hn
      rw [← List.cons_append, eraseMatches_append hw, List.cons_append]
      obtain ⟨taken', htaken, hplain | hlocal⟩ := next_local hn
      · obtain ⟨hplain, rfl⟩ := hplain
        obtain rfl := List.append_cancel_right htaken
        obtain rfl := Except.ok.inj ho
        rw [run_take_text, EStateM.Result.ok.injEq] at hr
        rw [← List.cons_append, reads_plain hplain]
        exact ih (hr.2 ▸ h)
      · obtain rfl := List.append_cancel_right htaken
        exact .token (hlocal _) ho hr (ih h)

/-- A byte order mark before the root is read as if it were no part of the text. -/
theorem exists_reads_withoutMark (h : Reads o names text {} r) :
    ∃ r₂, Reads o names (withoutMark text) {} r₂ ∧ r₂.document = r.document := by
  rw [withoutMark.eq_def]
  split
  · next rest =>
    have hplain : ∀ c ∈ ['\ufeff'], isPlain c := by simp [isPlain]
    rw [← List.singleton_append, reads_plain hplain] at h
    exact h.exists_of_top rfl ""
  · exact ⟨r, h, rfl⟩

end Reads

theorem withoutDoctypes_toList (text : String) :
    (withoutDoctypes text).toList = eraseMatches doctypeWidth text.toList := by
  rw [withoutDoctypes, String.toList_ofList]

/-- Without its doctypes the text holds the same document. -/
theorem parse_withoutDoctypes {text : String} {d : Document} (h : Document.parse {} text = .ok d)
    (hm : Measured (withoutMark text.toList)) :
    Document.parse {} (withoutDoctypes text) = .ok d := by
  rw [Document.parse_ok_iff_reads] at h ⊢
  obtain ⟨r, hr, rfl⟩ := h
  rw [withoutDoctypes_toList]
  generalize text.toList = cs at hr hm
  by_cases hc : ∃ rest, cs = '\ufeff' :: rest
  · obtain ⟨rest, rfl⟩ := hc
    have hwidth : doctypeWidth ('\ufeff' :: rest) = 0 := rfl
    rw [eraseMatches_cons_of_width_zero hwidth]
    exact ⟨r, reads_without_doctypes hm hr, rfl⟩
  · have hsame : withoutMark cs = cs := by
      rw [withoutMark.eq_def]
      split
      · next rest => exact absurd ⟨rest, rfl⟩ hc
      · rfl
    rw [hsame] at hr hm
    obtain ⟨r₂, hr₂, hd⟩ := exists_reads_withoutMark (reads_without_doctypes hm hr)
    exact ⟨r₂, hr₂, hd.symm⟩

/-- A text that can be read, is neither final nor a lone paragraph, and has nothing measured as a
doctype but doctypes is taken in as the document that it holds, in the namespace of books and with
its root called a chapter if it is one by another name; or else, without a root, as a final text. -/
theorem intake_of_parse (s : Settings) {text : String} {d : Document}
    (hmark : s.finalMark.toList.isPrefixOf text.toList = false) (hf : isFragment text = false)
    (h : Document.parse {} text = .ok d) (hm : Measured (withoutMark text.toList)) :
    (d.tree.root = none → intake s text = .ok (.final (withoutDoctypes text))) ∧
    ∀ root, d.tree.root = some root → intake s text = .ok (.document
      { d with
        tree := d.tree.update root fun n =>
          if n.name = "preface" ∨ n.name = "appendix" then { n with name := "chapter" } else n
        xmlns := some s.xmlns }) := by
  have hframed : framed s text = text := by rw [framed, if_neg (by simp [hf])]
  have hparse := parse_withoutDoctypes h hm
  refine ⟨fun hr => ?_, fun root hr => ?_⟩
  · simp only [intake, hmark, hframed, hparse, hr]
    rfl
  · simp only [intake, hmark, hframed, hparse, hr, isChapterLike, Bool.or_eq_true, beq_iff_eq]
    rfl

/-- The doctype before an appendix is taken out, and the appendix is taken in as a chapter. -/
theorem intake_of_appendix : ∃ d, intake {} "<!DOCTYPE a><appendix/>" = .ok (.document d) ∧
    d.tree.tag? 0 = some "chapter" := by
  have hs : scan (withoutMark "<!DOCTYPE a><appendix/>".toList) =
      ⟨[.doctype, .emptyTag ⟨"appendix", []⟩], none⟩ := by decide +kernel
  have hparse := Document.parse_of_tokens (o := {}) hs rfl rfl
  have hnone : ∀ s ∈ "<appendix/>".toList.tails, s ≠ [] → doctypeWidth (s ++ []) = 0 := by
    decide +kernel
  have hroot : Measured "<appendix/>".toList :=
    @Measured.other '<' "appendix/>".toList [] (.emptyTag ⟨"appendix", []⟩) (by decide +kernel)
      (fun s hsuffix => hnone s ((List.mem_tails s _).2 hsuffix)) .nil
  have hm : Measured (withoutMark "<!DOCTYPE a><appendix/>".toList) :=
    @Measured.doctype '<' "!DOCTYPE a><appendix/>".toList _ (by decide +kernel) (by decide +kernel) hroot
  exact ⟨_, (intake_of_parse {} (by decide +kernel) (by decide +kernel) hparse hm).2 0 rfl, rfl⟩

/-- A comment in the root loses the doctype that it shows. -/
theorem intake_of_shown_doctype : ∃ d d', Document.parse {} "<a><!--<!DOCTYPE b>--></a>" = .ok d ∧
    intake {} "<a><!--<!DOCTYPE b>--></a>" = .ok (.document d') ∧
    (d.tree.get? 1).map Node.value = some "<!DOCTYPE b>" ∧
    (d'.tree.get? 1).map Node.value = some "" := by
  let commented (value : String) : Tree :=
    { nodes := #[{ Node.element "a" with children := [1] },
        { Node.comment value with id := 1, parent := some 0 }]
      root := some 0 }
  let d : Document := { tree := commented "<!DOCTYPE b>" }
  let d' : Document := { tree := commented "", xmlns := some ({} : Settings).xmlns }
  have hparse : Document.parse {} "<a><!--<!DOCTYPE b>--></a>" = .ok d := by decide +kernel
  have hintake : intake {} "<a><!--<!DOCTYPE b>--></a>" = .ok (.document d') := by decide +kernel
  exact ⟨d, d', hparse, hintake, rfl, rfl⟩

/-! ### Texts that lose nothing -/

section Intake

variable {s : Settings} {text : String}

theorem exists_of_isFragment (h : isFragment text = true) : ∃ before c rest,
    text.toList = before ++ '<' :: c :: rest ∧ (∀ x ∈ before, isSpace x) ∧ c ∉ ['!', '?', '/'] := by
  obtain ⟨start, hstart, hp⟩ := List.any_eq_true.1 h
  obtain ⟨c, cs, he, hc⟩ : ∃ c cs, start.toList = '<' :: c :: cs ∧ c ∉ ['!', '?', '/'] := by
    simp only [List.mem_cons, List.not_mem_nil, or_false] at hstart
    rcases hstart with rfl | rfl | rfl | rfl
    all_goals exact ⟨_, _, rfl, by decide⟩
  obtain ⟨rest, hrest⟩ := List.isPrefixOf_iff_prefix.1 hp
  rw [trimStart, String.toList_ofList, he] at hrest
  refine ⟨text.toList.takeWhile isSpace, c, cs ++ rest, ?_, fun x hx => List.mem_takeWhile_imp hx,
    hc⟩
  rw [← List.cons_append, ← List.cons_append, hrest, List.takeWhile_append_dropWhile]

def calledChapter (n : Node) : Node :=
  if isChapterLike n.name then { n with name := "chapter" } else n

def takenIn (s : Settings) (d : Document) (root : NodeId) : Document :=
  { d with tree := d.tree.update root calledChapter, xmlns := some s.xmlns }

theorem intake_cases {i : Intake} (h : intake s text = .ok i) :
    s.finalMark.toList <+: text.toList ∧ i = .final text ∨
      ∃ d, Document.parse {} (withoutDoctypes (framed s text)) = .ok d ∧
        (d.tree.root = none ∧ i = .final (withoutDoctypes (framed s text)) ∨
          ∃ root, d.tree.root = some root ∧ i = .document (takenIn s d root)) := by
  rw [intake] at h
  split at h
  · next hm => exact .inl ⟨List.isPrefixOf_iff_prefix.1 hm, (Except.ok.inj h).symm⟩
  · simp only at h
    split at h
    · simp at h
    · next d hd =>
      refine .inr ⟨d, hd, ?_⟩
      split at h
      · next hr => exact .inl ⟨hr, (Except.ok.inj h).symm⟩
      · next root hr => exact .inr ⟨root, hr, (Except.ok.inj h).symm⟩

theorem intake_of_final (h : s.finalMark.toList <+: text.toList) :
    intake s text = .ok (.final text) := by
  rw [intake, if_pos (List.isPrefixOf_iff_prefix.2 h)]

theorem intake_of_framed {d : Document} {root : NodeId} (hm : ¬ s.finalMark.toList <+: text.toList)
    (hp : Document.parse {} (withoutDoctypes (framed s text)) = .ok d)
    (hr : d.tree.root = some root) : intake s text = .ok (.document (takenIn s d root)) := by
  rw [intake, if_neg (mt List.isPrefixOf_iff_prefix.1 hm)]
  simp only [hp, hr]
  rfl

theorem withoutDoctypes_eq_self (h : ¬ "<!DOCTYPE".toList <:+: text.toList) :
    withoutDoctypes text = text := by
  rw [← String.toList_inj, withoutDoctypes_toList]
  have hnone : ∀ rest, rest <:+ text.toList → rest ≠ [] → doctypeWidth (rest ++ []) = 0 := by
    intro rest hsuffix _
    have hafter : after? "<!DOCTYPE".toList (rest ++ []) = none := by
      rw [Option.eq_none_iff_forall_ne_some]
      intro tail ht
      rw [List.append_nil, after?_eq_some_iff] at ht
      exact h (List.IsInfix.trans ⟨[], tail, ht.symm⟩ hsuffix.isInfix)
    rw [doctypeWidth, hafter]
  simpa [eraseMatches, eraseFrom] using eraseMatches_append hnone

/-- A text that gets no element around it and loses nothing is taken in as it is read. -/
theorem intake_of_bare {d : Document} (hm : ¬ s.finalMark.toList <+: text.toList)
    (hf : isFragment text = false) (hd : withoutDoctypes text = text)
    (hp : Document.parse {} text = .ok d) :
    (d.tree.root = none → intake s text = .ok (.final text)) ∧
      ∀ root, d.tree.root = some root → intake s text = .ok (.document (takenIn s d root)) := by
  have hstripped : withoutDoctypes (framed s text) = text := by rw [framed, if_neg (by simp [hf]), hd]
  rw [← hstripped] at hp
  refine ⟨fun hr => ?_, fun root hr => intake_of_framed hm hp hr⟩
  rw [intake, if_neg (mt List.isPrefixOf_iff_prefix.1 hm)]
  simp only [hp, hr]
  rw [hstripped]

theorem isFragment_eq_false {d : Document} (h : Document.parse {} text = .ok d)
    (hr : d.tree.root = none) : isFragment text = false := by
  by_contra hf
  obtain ⟨before, c, rest, ht, hb, hc⟩ := exists_of_isFragment (Bool.not_eq_false _ ▸ hf)
  exact Document.root_ne_none_of_parse h ht hb hc hr

theorem intake_of_handed_back {out : String} (h : intake s text = .ok (.final out))
    (hout : s.finalMark.toList <+: out.toList ∨ withoutDoctypes out = out) :
    intake s out = .ok (.final out) := by
  by_cases hm : s.finalMark.toList <+: out.toList
  · exact intake_of_final hm
  · rcases intake_cases h with ⟨hm', he⟩ | ⟨d, hd, ⟨hr, he⟩ | ⟨root, -, he⟩⟩
    · exact absurd (Intake.final.inj he ▸ hm') hm
    · rw [← Intake.final.inj he] at hd
      exact (intake_of_bare hm (isFragment_eq_false hd hr) (hout.resolve_left hm) hd).1 hr
    · simp at he

theorem update_calledChapter {t : Tree} (hf : Forest t) {root : NodeId} (hr : t.root = some root) :
    ∃ tag, t.tag? root = some tag ∧
      (isChapterLike tag = true ∧
          t.update root calledChapter = t.update root (fun n => { n with name := "chapter" }) ∨
        isChapterLike tag = false ∧ t.update root calledChapter = t) := by
  obtain ⟨n, hn, he⟩ := hf.elementRoot hr
  refine ⟨n.name, by simp [tag?_of_get? hn, Node.tag?, he], ?_⟩
  cases hc : isChapterLike n.name with
  | true =>
      refine .inl ⟨rfl, update_congr fun m hm => ?_⟩
      obtain rfl := Option.some.inj (hn.symm.trans hm)
      rw [calledChapter, if_pos hc]
  | false =>
      refine .inr ⟨rfl, update_eq_self fun m hm => ?_⟩
      obtain rfl := Option.some.inj (hn.symm.trans hm)
      rw [calledChapter, if_neg (by simp [hc])]

/-- A document is taken in with nodes as reading makes them, and with no root that is a chapter by
another name. -/
theorem of_intake_document {d : Document} (h : intake s text = .ok (.document d)) :
    Proper d.tree ∧ Legible d.tree ∧ d.xmlns = some s.xmlns ∧
      ∀ root tag, d.tree.root = some root → d.tree.tag? root = some tag →
        isChapterLike tag = false := by
  rcases intake_cases h with ⟨-, he⟩ | ⟨d₀, hd, ⟨-, he⟩ | ⟨root, hr, he⟩⟩
  · simp at he
  · simp at he
  · obtain rfl := Intake.document.inj he
    have hp := Document.proper_of_parse hd
    have hl := Document.legible_of_parse hd
    obtain ⟨tag, htag, ⟨-, hu⟩ | ⟨hc, hu⟩⟩ := update_calledChapter hp.forest hr
    · have ht : (takenIn s d₀ root).tree = _ := hu
      rw [ht]
      refine ⟨hp.update (Node.relabels_name _) root, hl.update_name htag _, rfl, ?_⟩
      intro r tag' hr' htag'
      obtain rfl : root = r := Option.some.inj (hr.symm.trans hr')
      rw [tag?_update_name htag, if_pos rfl, Option.some.injEq] at htag'
      rw [← htag']
      decide
    · have ht : (takenIn s d₀ root).tree = _ := hu
      rw [ht]
      refine ⟨hp, hl, rfl, fun r tag' hr' htag' => ?_⟩
      obtain rfl : root = r := Option.some.inj (hr.symm.trans hr')
      exact Option.some.inj (htag.symm.trans htag') ▸ hc

end Intake

end BookMarkup.Publisher
