import BookMarkup.Proofs.Document.Same
import BookMarkup.Proofs.Publisher.Intake

/-!
Lone paragraphs. A text that begins with the start tag of a paragraph, as the two kinds of it are
written most often, gets an element around it and a title before it. The paragraph is read in there as
it would be read by itself, since neither its tokens nor what is measured as a doctype in it depend on
what comes around it. A paragraph that is written in any other way stays the root.
-/

namespace BookMarkup.Publisher

open Reader Text Token BookMarkup.Tree

/-! ### Doctypes in a text with markup around it -/

section Measured

variable {text after : List Char}

theorem doctypeWidth_le (text : List Char) : doctypeWidth text ≤ text.length := by
  rw [doctypeWidth]
  split
  · exact Nat.zero_le _
  · simp only
    split
    · exact Nat.sub_le _ _
    · split
      · exact Nat.sub_le _ _
      · exact Nat.zero_le _
    · exact Nat.zero_le _

theorem doctypeWidth_of_head? {c : Char} (hc : c ≠ '<') (text : List Char) :
    doctypeWidth (c :: text) = 0 := by
  rw [doctypeWidth]
  simp [after?, Ne.symm hc]

theorem dropWhile_subset (h : ']' ∉ text) : text.dropWhile (· != ']') = [] :=
  List.dropWhile_eq_nil_iff.2 fun _ hc => bne_iff_ne.2 fun he => h (he ▸ hc)

/-- The end of an internal subset, and the space after it, are the same with markup after the text. -/
theorem afterSubset_append (ha : after.head? = some '<') (hb : ']' ∉ after) (text : List Char) :
    ((text ++ after).dropWhile (· != ']')).tail.dropWhile isSpace =
      if ']' ∈ text then (text.dropWhile (· != ']')).tail.dropWhile isSpace ++ after else [] := by
  split
  · next h =>
    obtain ⟨c, cs, hc⟩ : ∃ c cs, text.dropWhile (· != ']') = c :: cs := by
      refine List.exists_cons_of_ne_nil fun he => ?_
      simpa using List.dropWhile_eq_nil_iff.1 he _ h
    have hspace : ∀ c ∈ after.head?, isSpace c = false := by
      intro c hc
      obtain rfl : '<' = c := Option.some.inj (ha.symm.trans hc)
      rfl
    rw [List.dropWhile_append, hc]
    exact dropWhile_append_of_head? hspace
  · next h =>
    rw [dropWhile_subset (by simp [h, hb])]
    rfl

/-- After its keyword, a doctype is measured up to a bracket in the text, or else not at all. -/
theorem doctypeWidth_keyword_append (hclose : '>' ∈ text) (ha : after.head? = some '<')
    (hb : ']' ∉ after) : doctypeWidth ("<!DOCTYPE".toList ++ (text ++ after)) =
      doctypeWidth ("<!DOCTYPE".toList ++ text) := by
  rw [doctypeWidth, doctypeWidth, after?_append, after?_append]
  simp only
  generalize hp : (fun c => c != '>' && c != '[') = p
  cases hd : text.dropWhile p with
  | nil =>
      have hloose := List.dropWhile_eq_nil_iff.1 hd '>' hclose
      rw [← hp] at hloose
      simp at hloose
  | cons d rest =>
      have happend : (text ++ after).dropWhile p = d :: (rest ++ after) := by
        rw [List.dropWhile_append, hd]
        rfl
      have hstop : d = '>' ∨ d = '[' := by
        have hd' := List.head?_dropWhile_not p text
        rw [hd, ← hp] at hd'
        simpa [or_iff_not_imp_left] using hd'
      rw [happend]
      obtain rfl | rfl := hstop
      · simp only [List.length_append]
        omega
      · simp only
        rw [afterSubset_append ha hb]
        by_cases hbracket : ']' ∈ rest
        · rw [if_pos hbracket]
          cases (rest.dropWhile (· != ']')).tail.dropWhile isSpace with
          | nil =>
              obtain ⟨more, rfl⟩ := List.head?_eq_some_iff.1 ha
              rfl
          | cons c cs =>
              rw [List.cons_append]
              by_cases hc : c = '>'
              · subst hc
                simp only [List.length_append]
                omega
              · simp [hc]
        · rw [if_neg hbracket, dropWhile_subset hbracket]
          rfl

/-- Markup that comes after a text is no part of what is measured in it, if the markup in the text is
closed there. -/
theorem doctypeWidth_append (hclosed : text.head? = some '<' → '>' ∈ text) (hne : text ≠ [])
    (ha : after.head? = some '<') (hb : ']' ∉ after) :
    doctypeWidth (text ++ after) = doctypeWidth text := by
  have hkeyword : '>' ∉ "<!DOCTYPE".toList := by decide
  have hhead : (text ++ after).head? = text.head? := List.head?_append_of_ne_nil text hne
  cases hk : after? "<!DOCTYPE".toList (text ++ after) with
  | none => rw [doctypeWidth, doctypeWidth, hk, after?_eq_none_of_append hk]
  | some rest =>
      rw [after?_eq_some_iff] at hk
      have hclose : '>' ∈ text := hclosed (by rw [← hhead, hk]; rfl)
      obtain ⟨more, hmore, -⟩ | ⟨inside, rfl, rfl⟩ := List.append_eq_append_iff.1 hk
      · exact absurd (hmore ▸ List.mem_append_left more hclose) hkeyword
      · rw [List.append_assoc]
        exact doctypeWidth_keyword_append ((List.mem_append.1 hclose).resolve_left hkeyword) ha hb

theorem Measured.plain {c : Char} {taken rest : List Char} {token : Token}
    (hn : next c (taken ++ rest) = .ok (token, rest)) (ht : '<' ∉ c :: taken) (h : Measured rest) :
    Measured (c :: (taken ++ rest)) := by
  refine .other hn (fun s hs hne => ?_) h
  obtain ⟨d, ds, rfl⟩ := List.exists_cons_of_ne_nil hne
  exact doctypeWidth_of_head? (fun hd => ht (hs.subset (hd ▸ List.mem_cons_self))) _

theorem Measured.tag {d : Char} {taken rest : List Char} {token : Token}
    (hn : next '<' (d :: (taken ++ rest)) = .ok (token, rest)) (hd : d ≠ '!')
    (ht : '<' ∉ d :: taken) (h : Measured rest) : Measured ('<' :: d :: (taken ++ rest)) := by
  refine @Measured.other '<' (d :: taken) rest token hn (fun s hs hne => ?_) h
  rcases List.suffix_cons_iff.1 hs with rfl | hs
  · simp [doctypeWidth, after?, Ne.symm hd]
  · obtain ⟨c, cs, rfl⟩ := List.exists_cons_of_ne_nil hne
    exact doctypeWidth_of_head? (fun hc => ht (hs.subset (hc ▸ List.mem_cons_self))) _

/-- What is measured stays the same when there is markup after the text. -/
theorem Measured.append (h : Measured text) (hafter : Measured after) (ha : after.head? = some '<')
    (hb : ']' ∉ after) : Measured (text ++ after) := by
  have hmarkup : ∀ c ∈ after.head?, isPlain c = false := by simp [ha, isPlain]
  induction h with
  | nil => exact hafter
  | @doctype c cs rest hn hw _ ih =>
      obtain ⟨taken, rfl, hclosed⟩ := closed_of_next hn
      refine .doctype (next_append hn hmarkup) ?_ ih
      change List.drop (doctypeWidth (c :: (taken ++ rest) ++ after)) (c :: (taken ++ rest) ++ after) = _
      rw [doctypeWidth_append (fun hh => ?_) (by simp) ha hb,
        List.drop_append_of_le_length (doctypeWidth_le _), hw]
      exact List.mem_append_left rest (hclosed _ (List.suffix_refl _) hh)
  | @other c taken rest token hn hw _ ih =>
      obtain ⟨taken', he, hclosed⟩ := closed_of_next hn
      obtain rfl := List.append_cancel_right he
      have hnext := next_append hn hmarkup
      rw [List.append_assoc] at hnext
      rw [List.cons_append, List.append_assoc]
      refine .other hnext (fun s hs hne => ?_) ih
      rw [← List.append_assoc, doctypeWidth_append (fun hh => ?_) (by simp [hne]) ha hb, hw s hs hne]
      rw [List.head?_append_of_ne_nil s hne] at hh
      exact List.mem_append_left rest (hclosed s hs hh)

end Measured

/-! ### Texts that get an element around them -/

/-- The root of `t'` has the name given, and the elements in it are a title with nothing in it and
what is the same as the root of `t`. -/
def Wraps (name : String) (t t' : Tree) : Prop :=
  ∃ top title paragraph, t'.root = some top ∧ t'.tag? top = some name ∧
    t'.elementsIn top = [title, paragraph] ∧
    t'.contentOf title = some { (Node.element "title").content with id := title } ∧
    t'.childrenOf title = [] ∧ Same t t' t.root.toList [paragraph]

/-- The elements are the same by themselves and in the element around them. -/
theorem wraps_of_outlined {t t' : Tree} {root : NodeId} {c : Outline} {keeps : Bool} (ht : Proper t)
    (ht' : Proper t') (hr : t.root = some root)
    (h : Outlined {} t (c.elements.kept {} false false) t.root.toList)
    (h' : Outlined {} t' (.element ⟨"preface", []⟩ (.element ⟨"title", []⟩ .nil
      (c.kept {} false keeps)) .nil) t'.root.toList) : Wraps "preface" t t' := by
  obtain ⟨_, top, ids, -, hroot, htop, hin, -⟩ := h'.exists_of_element
  obtain ⟨attributes, title, inner, ha, hchildren, htitle, hnone, hinner⟩ := hin.exists_of_element
  obtain rfl : Attributes.empty = attributes := Except.ok.inj ha
  have hroot' : t'.root = some top := by
    cases ho : t'.root with
    | none => simp [ho] at hroot
    | some i =>
        rw [ho, Option.toList_some, List.cons.injEq] at hroot
        rw [hroot.1]
  have helements : t'.elementsIn top = title :: inner.filter fun i => (t'.tag? i).isSome := by
    rw [elementsIn, hchildren, List.filter_cons_of_pos]
    rw [tag?_of_label htitle]
    rfl
  -- There is one root, so that there is one more element.
  have hsame := h.same ht ht' hinner.elements
  obtain ⟨paragraph, hp⟩ : ∃ paragraph, inner.filter (fun i => (t'.tag? i).isSome) = [paragraph] := by
    rw [hr] at hsame
    exact hsame.eq_singleton
  rw [hp] at helements hsame
  refine ⟨top, title, paragraph, hroot', ?_, helements, htitle, ?_, hsame⟩
  · rw [tag?_of_label htop]
    rfl
  · cases hc : t'.childrenOf title with
    | nil => rfl
    | cons =>
        rw [hc] at hnone
        cases hnone

section Framed

variable {text : String} (hf : isFragment text = true)

include hf

theorem withoutMark_of_isFragment : withoutMark text.toList = text.toList := by
  obtain ⟨before, c, rest, ht, hb, -⟩ := exists_of_isFragment hf
  rw [ht, withoutMark.eq_def]
  split
  · next rest' he =>
    cases before with
    | nil => simp at he
    | cons x before =>
        have hx : isSpace x := hb x List.mem_cons_self
        rw [List.cons_append, List.cons.injEq] at he
        rw [he.1] at hx
        exact absurd hx (by decide)
  · rfl

theorem withoutMark_framed : withoutMark (framed {} text).toList =
    '<' :: 'p' :: ("reface>".toList ++ '<' :: 't' :: ("itle/>".toList ++
      (text.toList ++ "</preface>".toList))) := by
  rw [framed, if_pos hf]
  simp [withoutMark]

theorem scan_framed {tokens : List Token} {n : Nat} (hs : scan text.toList = ⟨tokens, none⟩)
    (hn : Nested n tokens) : scan (withoutMark (framed {} text).toList) =
      ⟨.startTag ⟨"preface", []⟩ :: .emptyTag ⟨"title", []⟩ :: (tokens ++ [.endTag "preface"]),
        none⟩ := by
  obtain ⟨names, m, hstacks⟩ := exists_stacks_scan text.toList
  rw [hs] at hstacks
  obtain ⟨rfl, -⟩ := hstacks.closing_iff.1 hn
  have hend : scanRest ["preface"] "</preface>".toList = ⟨[.endTag "preface"], none⟩ := by
    decide +kernel
  have hinner : scanRest ["preface"] (text.toList ++ "</preface>".toList) =
      ⟨tokens ++ [.endTag "preface"], none⟩ := by
    have hmarkup : ∀ c ∈ "</preface>".toList.head?, isPlain c = false := by simp [isPlain]
    have happend := scanRest_append hs hstacks hmarkup ["preface"]
    rwa [List.nil_append, hend] at happend
  have hstart (rest : List Char) : next '<' ('p' :: ("reface>".toList ++ rest)) =
      .ok (.startTag ⟨"preface", []⟩, rest) := rfl
  have htitle (rest : List Char) : next '<' ('t' :: ("itle/>".toList ++ rest)) =
      .ok (.emptyTag ⟨"title", []⟩, rest) := rfl
  have hscan : scan (withoutMark (framed {} text).toList) =
      scanRest [] ('<' :: 'p' :: ("reface>".toList ++ '<' :: 't' :: ("itle/>".toList ++
        (text.toList ++ "</preface>".toList)))) := by
    rw [withoutMark_framed hf]
    rfl
  rw [hscan, scanRest_cons, hstart]
  simp only [nest]
  rw [scanRest_cons, htitle]
  simp only [nest]
  rw [hinner]
  rfl

/-- What is measured as a doctype in the text is what is measured with the element around it. -/
theorem measured_framed (hm : Measured (withoutMark text.toList)) :
    Measured (withoutMark (framed {} text).toList) := by
  rw [withoutMark_of_isFragment hf] at hm
  have hend : Measured "</preface>".toList :=
    @Measured.tag '/' "preface>".toList [] (.endTag "preface") (by decide +kernel) (by decide)
      (by decide) .nil
  rw [withoutMark_framed hf]
  exact @Measured.tag 'p' "reface>".toList _ (.startTag ⟨"preface", []⟩) rfl (by decide) (by decide)
    (@Measured.tag 't' "itle/>".toList _ (.emptyTag ⟨"title", []⟩) rfl (by decide) (by decide)
      (hm.append hend rfl (by decide)))

/-- What is read of the text by itself is read of it in the element around it. -/
theorem exists_parse_framed {d : Document} {root : NodeId} (h : Document.parse {} text = .ok d)
    (hr : d.tree.root = some root) :
    ∃ d', Document.parse {} (framed {} text) = .ok d' ∧ Wraps "preface" d.tree d'.tree := by
  obtain ⟨hflaw, ⟨n, -, hn⟩, hsound⟩ := Document.exists_parse_iff.1 ⟨d, h⟩
  have hraw := Document.outlined_of_parse h
  rw [Outline.ofText] at hraw
  rw [withoutMark_of_isFragment hf] at hflaw hn hsound hraw
  generalize hs : scan text.toList = tokens at hflaw hn hsound hraw
  obtain ⟨tokens, flaw⟩ := tokens
  obtain rfl : flaw = none := hflaw
  have hframed := scan_framed hf hs hn
  obtain ⟨d', hd'⟩ : ∃ d', Document.parse {} (framed {} text) = .ok d' := by
    rw [Document.exists_parse_iff, hframed]
    refine ⟨rfl, ⟨1, Nat.le_refl 1, .element ⟨"preface", []⟩ (.empty ⟨"title", []⟩ hn) .nil⟩, ?_⟩
    have htag (name : String) : Tag.Sound {} ⟨name, []⟩ := ⟨rfl, fun _ ha => by cases ha⟩
    simp only [List.forall_mem_cons, List.forall_mem_append]
    exact ⟨htag _, htag _, hsound, trivial, by simp⟩
  -- The outline of the text is in that of the whole.
  obtain ⟨f, hfold⟩ := Outline.exists_foldr_precede hn
  have hwhole := Document.outlined_of_parse hd'
  rw [Outline.ofText, hframed] at hwhole
  simp only [Outline.ofRest, hfold, List.foldr_cons, List.foldr_append, List.foldr_nil,
    Token.precede, List.headD_cons, Outline.elements, Outline.kept] at hraw hwhole
  exact ⟨d', hd', wraps_of_outlined (Document.proper_of_parse h) (Document.proper_of_parse hd') hr
    hraw hwhole⟩

end Framed

section Intake

variable {text : String} {d : Document} {root : NodeId}

theorem Wraps.update {t t' : Tree} (ht' : Proper t') (h : Wraps "preface" t t') {root : NodeId}
    (hr : t'.root = some root) : Wraps "chapter" t (t'.update root calledChapter) := by
  obtain ⟨top, title, paragraph, htop, hname, helements, htitle, hnone, hsame⟩ := h
  obtain rfl : root = top := Option.some.inj (hr.symm.trans htop)
  obtain ⟨tag, htag, hcase⟩ := update_calledChapter ht'.forest hr
  obtain rfl : "preface" = tag := Option.some.inj (hname.symm.trans htag)
  obtain ⟨-, hupdate⟩ := hcase.resolve_right fun hno => absurd hno.1 (by decide)
  have hrelabels := Node.relabels_name "chapter"
  have houtside : t'.parentOf root = none := ht'.top hr
  have hinside (i : NodeId) (hi : i ∈ [title, paragraph]) : root ≠ i := by
    rintro rfl
    rw [← helements, elementsIn, List.mem_filter, ht'.forest.mem_childrenOf, houtside] at hi
    simp at hi
  rw [hupdate]
  refine ⟨root, title, paragraph, hr, ?_, ?_, ?_, ?_, ?_⟩
  · rw [tag?_update_name htag, if_pos rfl]
  · rw [← helements, elementsIn, elementsIn, childrenOf_update hrelabels]
    refine List.filter_congr fun i _ => ?_
    rw [tag?_update_name htag]
    split
    · next hi => rw [hi, htag]; rfl
    · rfl
  · rw [contentOf_update hrelabels, if_neg (hinside title (by simp)), htitle]
  · rw [childrenOf_update hrelabels, hnone]
  · exact hsame.update ht'.forest hrelabels houtside
      fun hm => hinside root (List.mem_cons_of_mem _ hm) rfl

/-- How a paragraph that is a document is taken in. If it begins, perhaps after white space, with one
of the four start tags that are told from others, it is below a chapter then, after an empty title,
and it is the same as it was by itself. A paragraph that is written in any other way stays the root. -/
theorem intake_of_paragraph (hmark : ¬ ({} : Settings).finalMark.toList <+: text.toList)
    (h : Document.parse {} text = .ok d) (hr : d.tree.root = some root)
    (htag : d.tree.tag? root = some "simpara" ∨ d.tree.tag? root = some "para")
    (hm : Measured (withoutMark text.toList)) :
    ∃ d', intake {} text = .ok (.document d') ∧ d'.xmlns = some ({} : Settings).xmlns ∧
      (isFragment text = true → Wraps "chapter" d.tree d'.tree) ∧
      (isFragment text = false → d'.tree = d.tree) := by
  cases hf : isFragment text with
  | true =>
      obtain ⟨d', hd', hwraps⟩ := exists_parse_framed hf h hr
      have ⟨top, _, _, htop, _⟩ := hwraps
      have hparse := parse_withoutDoctypes hd' (measured_framed hf hm)
      exact ⟨_, intake_of_framed hmark hparse htop, rfl,
        fun _ => hwraps.update (Document.proper_of_parse hd') htop, by simp⟩
  | false =>
      have hframed : framed {} text = text := by rw [framed, if_neg (by simp [hf])]
      have hparse := parse_withoutDoctypes h hm
      rw [← hframed] at hparse
      refine ⟨_, intake_of_framed hmark hparse hr, rfl, by simp, fun _ => ?_⟩
      obtain ⟨tag, htag', ⟨hc, -⟩ | ⟨-, hupdate⟩⟩ :=
        update_calledChapter (Document.proper_of_parse h).forest hr
      · rw [htag'] at htag
        rcases htag with he | he
        all_goals
          obtain rfl := Option.some.inj he
          exact absurd hc (by decide)
      · exact hupdate

/-- A paragraph with text in it is put below a chapter. -/
theorem intake_of_simple_paragraph : ∃ d d',
    Document.parse {} "<simpara>Just text</simpara>" = .ok d ∧
      intake {} "<simpara>Just text</simpara>" = .ok (.document d') ∧
      Wraps "chapter" d.tree d'.tree := by
  have hs : scan (withoutMark "<simpara>Just text</simpara>".toList) =
      ⟨[.startTag ⟨"simpara", []⟩, .text "Just text", .endTag "simpara"], none⟩ := by
    decide +kernel
  have hparse := @Document.parse_of_tokens {} _ _ _ hs rfl rfl
  have hend : Measured "</simpara>".toList :=
    @Measured.tag '/' "simpara>".toList [] (.endTag "simpara") (by decide +kernel) (by decide)
      (by decide) .nil
  have htext : Measured "Just text</simpara>".toList :=
    @Measured.plain 'J' "ust text".toList "</simpara>".toList (.text "Just text") (by decide +kernel)
      (by decide) hend
  have hm : Measured (withoutMark "<simpara>Just text</simpara>".toList) :=
    @Measured.tag 's' "impara>".toList "Just text</simpara>".toList (.startTag ⟨"simpara", []⟩)
      (by decide +kernel) (by decide) (by decide) htext
  obtain ⟨d', hd', -, hwraps, -⟩ :=
    @intake_of_paragraph _ _ 0 (by decide +kernel) hparse rfl (.inl rfl) hm
  exact ⟨_, d', hparse, hd', hwraps (by decide +kernel)⟩

/-- An empty tag is not told to be a paragraph, so that the paragraph stays the root. -/
theorem intake_of_empty_paragraph : ∃ d d', Document.parse {} "<para/>" = .ok d ∧
    d.tree.root = some 0 ∧ d.tree.tag? 0 = some "para" ∧
    intake {} "<para/>" = .ok (.document d') ∧ ¬ Wraps "chapter" d.tree d'.tree := by
  let tree : Tree := { nodes := #[Node.element "para"], root := some 0 }
  have hparse : Document.parse {} "<para/>" = .ok { tree } := by decide +kernel
  have hintake : intake {} "<para/>" =
      .ok (.document { tree, xmlns := some ({} : Settings).xmlns }) := by decide +kernel
  refine ⟨_, _, hparse, rfl, rfl, hintake, ?_⟩
  rintro ⟨top, title, paragraph, htop, hname, -⟩
  obtain rfl := Option.some.inj htop
  exact absurd hname (by decide)

end Intake

end BookMarkup.Publisher
