import BookMarkup.Proofs.Document.Head
import BookMarkup.Proofs.Document.Tidy
import BookMarkup.Token.Stream

/-!
Reading on in the middle of a text. What has been read is in the reader, the names of the open
elements with it; a piece of text changes the reader, and reading goes on with what comes after the
piece. Character data may be taken in pieces, though it is one token up to the next markup.
-/

namespace BookMarkup.Reader

open Token Text

def resume (o : Options) (size : Nat) (text : List Char) (r : Reader) :
    EStateM.Result Document.Fault Reader Unit :=
  (takeAll o size (scanRest (r.opened.map Opened.tag) text)).run r

section Resume

variable {o : Options} {size : Nat} {r r' : Reader} {rest : List Char}

theorem resume_nil (ho : r.opened = []) : resume o size [] r = .ok () r := by
  have hrun : (forM (scanRest [] []).items (take o)).run r = .ok () r := rfl
  rw [resume, ho, List.map_nil]
  exact run_takeAll_ok.2 ⟨hrun, rfl, ho⟩

theorem resume_cons {c : Char} {cs : List Char} {token : Token}
    (hn : next c cs = .ok (token, rest))
    (ho : nest (r.opened.map Opened.tag) token = .ok (r'.opened.map Opened.tag))
    (hr : (take o token).run r = .ok () r') : resume o size (c :: cs) r = resume o size rest r' := by
  rw [resume, scanRest_cons, hn]
  simp only [ho]
  simp only [resume, takeAll, Readout.cons, List.forM_eq_forM, List.forM_cons, EStateM.run_bind, hr]

/-! ### Character data -/

theorem resume_stretch (text : List Char) (r : Reader) :
    resume o size text r = resume o size (text.dropWhile isPlain)
      { r with run := r.run ++ String.ofList (text.takeWhile isPlain) } := by
  cases text with
  | nil => simp
  | cons c cs =>
      by_cases hc : isPlain c
      · have hne : c ≠ '<' ∧ c ≠ '&' := by simpa [isPlain] using hc
        rw [List.dropWhile_cons_of_pos hc, List.takeWhile_cons_of_pos hc]
        exact resume_cons (by rw [next, if_neg hne.1, if_neg hne.2]) rfl (run_take_text o r _)
      · rw [List.dropWhile_cons_of_neg hc, List.takeWhile_cons_of_neg hc]
        simp

theorem resume_plain {text : List Char} (h : ∀ c ∈ text, isPlain c) :
    resume o size (text ++ rest) r =
      resume o size rest { r with run := r.run ++ String.ofList text } := by
  rw [resume_stretch, resume_stretch rest, List.dropWhile_append_of_pos h,
    List.takeWhile_append_of_pos h, String.ofList_append, String.append_assoc]

/-- A new line at the end belongs to no node. -/
theorem resume_line (ho : r.opened = []) :
    resume o size ['\n'] r = .ok () { r with run := r.run ++ "\n" } := by
  have hline : ∀ c ∈ ['\n'], isPlain c := by simp [isPlain]
  exact (resume_plain hline).trans (resume_nil ho)

theorem resume_reference (name : List Char) {c : Char}
    (hn : ∀ x ∈ name, x ≠ ';' ∧ x ≠ '&' ∧ x ≠ '<') (hc : Reference.inData name = some c) :
    resume o size ('&' :: (name ++ ';' :: rest)) r =
      resume o size rest { r with run := r.run.push c } := by
  refine resume_cons (next_reference hn rest) rfl ?_
  rw [run_take_reference, String.toList_ofList, hc]

theorem resume_escapeDataChar (c : Char) :
    resume o size (escapeDataChar c ++ rest) r = resume o size rest { r with run := r.run.push c } := by
  rw [escapeDataChar.eq_def]
  split
  · exact resume_reference ['l', 't'] (by simp) rfl
  · exact resume_reference ['g', 't'] (by simp) rfl
  · exact resume_reference ['a', 'm', 'p'] (by simp) rfl
  · next hlt _ hamp =>
    have hc : isPlain c = true := by simpa [isPlain] using ⟨hlt, hamp⟩
    rw [resume_plain (by simpa using hc)]
    congr 2

/-- Written character data adds its value to the run. -/
theorem resume_escapeData (s : String) :
    resume o size (escapeData s ++ rest) r = resume o size rest { r with run := r.run ++ s } := by
  rw [escapeData]
  -- The run takes the characters one by one, though a stretch of them is one token.
  have hall : ∀ (cs : List Char) (r : Reader), resume o size (cs.flatMap escapeDataChar ++ rest) r =
      resume o size rest { r with run := r.run ++ String.ofList cs } := by
    intro cs
    induction cs with
    | nil => intro r; simp
    | cons c cs ih =>
        intro r
        rw [List.flatMap_cons, List.append_assoc, resume_escapeDataChar, ih]
        congr 2
        rw [String.push_eq_append, String.append_assoc, String.ofList_cons]
  rw [hall, String.ofList_toList]

/-! ### Markup -/

theorem nest_of_leaf? {token : Token} {content : Node} (hl : token.leaf? = some content)
    (opened : List String) : nest opened token = .ok opened := by
  cases token <;> simp only [leaf?, reduceCtorEq] at hl <;> rfl

theorem resume_leaf {token : Token} {content : Node} (hl : token.leaf? = some content)
    (hf : token.Faithful content) :
    resume o size (Layout.writtenLeaf content ++ rest) r =
      resume o size rest (addLeaf content (flush o false r)) := by
  obtain ⟨written, hw, hn⟩ := hf
  rw [hw, List.cons_append]
  refine resume_cons (hn rest) ?_ (run_take_leaf o r hl)
  rw [nest_of_leaf? hl, opened_addLeaf, opened_flush]

section Tags

variable {n : Node} (hn : n.NamedUnder o) {xmlns : Option String}
  (hx : xmlns = none ∨ o.stripPrefixes = true) {id : NodeId}
  (hr : (addElement o (n.head xmlns)).run (flush o false r) = .ok id r') (ho : r'.opened = r.opened)

include hn hx hr ho

theorem resume_startTag :
    resume o size (Layout.writtenHead n xmlns ++ '>' :: rest) r =
      resume o size rest { r' with opened :=
        ⟨id, n.name, n.space?.getD ((r.opened.head?.map Opened.preserves).getD false)⟩ ::
          r.opened } := by
  rw [Node.writtenHead_eq, List.cons_append]
  have hp := hn.preservesSpace_head hx ((r.opened.head?.map Opened.preserves).getD false)
  simp only [Node.head] at hp hr
  refine resume_cons (next_startTag hn.tag (hn.isQName xmlns) rest) (by rw [← hn.kept]; rfl) ?_
  rw [run_take_startTag, opened_flush]
  simp only [hp, hr, ho, hn.kept]

omit hx in
theorem resume_emptyTag :
    resume o size (Layout.writtenHead n xmlns ++ '/' :: '>' :: rest) r = resume o size rest r' := by
  rw [Node.writtenHead_eq, List.cons_append]
  refine resume_cons (next_emptyTag hn.tag (hn.isQName xmlns) rest) (by rw [ho]; rfl) ?_
  simp only [Node.head] at hr
  rw [run_take_emptyTag, hr]

end Tags

theorem resume_endTag {top : Opened} {outer : List Opened} (ho : r.opened = top :: outer)
    (hn : IsQName top.tag) (hk : o.nameOf top.tag = top.tag) :
    resume o size ('<' :: '/' :: (top.tag.toList ++ '>' :: rest)) r =
      resume o size rest { flush o true r with opened := outer } := by
  refine resume_cons (next_endTag hn rest) ?_ ?_
  · rw [ho, List.map_cons, nest, if_pos rfl]
  · rw [run_take_endTag, opened_flush, ho]
    simp only [hk, if_true]

/-! ### The declaration -/

theorem uncut_of_not_mem {inside : List Char} (h : '>' ∉ inside) : Uncut ['?', '>'] inside := by
  intro tail ht hne
  have hm : '>' ∉ tail := fun hm => h (ht.subset hm)
  cases tail with
  | nil => exact absurd rfl hne
  | cons c tail =>
      cases tail with
      | nil => simp [after?]
      | cons d tail =>
          have hd : ¬ '>' = d := by
            rintro rfl
            exact hm (by simp)
          simp [after?, hd]

def prolog (value : Option String) : List (String × String) :=
  ("version", "1.0") :: ("encoding", "UTF-8") ::
    (value.map fun value => ("standalone", value)).toList

theorem isQName_prolog (value : Option String) : ∀ a ∈ prolog value, IsQName a.1 := by
  have hv : IsQName "version" := by decide
  have he : IsQName "encoding" := by decide
  have hs : IsQName "standalone" := by decide
  cases value <;> simp [prolog, hv, he, hs]

theorem nodup_prolog (value : Option String) : ((prolog value).map Prod.fst).Nodup := by
  cases value <;> simp [prolog]

theorem writtenDeclaration_append (value : Option String) (rest : List Char) :
    Layout.writtenDeclaration value ++ rest =
      '<' :: '?' :: ("xml".toList ++ writtenAttributes (prolog value) ++ ['?', '>'] ++
        '\n' :: rest) := by
  have hversion : Layout.writtenAttribute "version" "1.0" = " version=\"1.0\"".toList := by
    decide +kernel
  have hencoding : Layout.writtenAttribute "encoding" "UTF-8" = " encoding=\"UTF-8\"".toList := by
    decide +kernel
  have hlead : "<?xml version=\"1.0\" encoding=\"UTF-8\"".toList = '<' :: '?' :: ("xml".toList ++
      (Layout.writtenAttribute "version" "1.0" ++
        Layout.writtenAttribute "encoding" "UTF-8")) := by
    rw [hversion, hencoding]
    simp
  have hwritten : Layout.writtenDeclaration value =
      "<?xml version=\"1.0\" encoding=\"UTF-8\"".toList ++
        (value.map (Layout.writtenAttribute "standalone")).getD [] ++ ['?', '>', '\n'] := rfl
  rw [hwritten, hlead]
  cases value <;> simp [writtenAttributes, prolog]

/-- What the reader takes for the value is the value as it is written. -/
theorem run_take_writtenDeclaration (o : Options) (value : Option String) (r : Reader) :
    (take o (.declaration ⟨"xml", writtenAttributes (prolog value)⟩)).run r = .ok ()
      { r with standalone := (value.map fun v => String.ofList (escapeValue v)).or r.standalone } := by
  cases value with
  | none =>
      have hnone : "standalone" ∉ (prolog none).map Prod.fst := by simp [prolog]
      rw [take, Tag.lookup_written "xml" (isQName_prolog none) (nodup_prolog none) hnone]
      rfl
  | some v =>
      have hsome : ("standalone", v) ∈ prolog (some v) := by simp [prolog]
      rw [take, Tag.lookup_written_of_mem "xml" (isQName_prolog _) (nodup_prolog _) hsome]
      rfl

/-- The declaration as it is written leaves a new line in the run. -/
theorem resume_declaration (o : Options) (size : Nat) (value : Option String) (rest : List Char)
    (r : Reader) :
    resume o size (Layout.writtenDeclaration value ++ rest) r =
      resume o size rest { r with
        standalone := (value.map fun v => String.ofList (escapeValue v)).or r.standalone
        run := r.run ++ "\n" } := by
  let body := writtenAttributes (prolog value)
  have hbracket : '>' ∉ body := fun hm => ne_of_mem_writtenAttributes (isQName_prolog value) hm rfl
  have hu : Uncut ['?', '>'] ("xml".toList ++ body) := uncut_of_not_mem (by simp [hbracket])
  have hsplit : splitName ("xml".toList ++ body) = ⟨"xml", body⟩ := by
    have hname : ∀ c ∈ "xml".toList, isMarkupBlank c = false := by simp [isMarkupBlank]
    rw [splitName_append hname fun c hc => head?_writtenAttributes hc, String.ofList_toList]
  have hnext : next '<' ('?' :: ("xml".toList ++ body ++ ['?', '>'] ++ '\n' :: rest)) =
      .ok (.declaration ⟨"xml", body⟩, '\n' :: rest) := by
    rw [next, if_pos rfl, markup_instruction _ (by simp), cut?_of_uncut hu (by simp)]
    simp only [ofInstruction, hsplit, if_true]
  have hline : ∀ c ∈ ['\n'], isPlain c := by simp [isPlain]
  rw [writtenDeclaration_append]
  exact (resume_cons hnext (by rfl) (run_take_writtenDeclaration o value r)).trans
    (resume_plain hline)

end Resume

end BookMarkup.Reader
