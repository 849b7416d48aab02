import BookMarkup.Proofs.Document.Written
import BookMarkup.Proofs.Text.Erase
import BookMarkup.Publisher.Publish

/-!
The published text and `standalone="no"`. The mark is erased from the text as it is written, so that
the declaration never has it; but it goes from all other places as well where it is written, and
these are told node by node.
-/

namespace BookMarkup.Publisher

open Layout Text BookMarkup.Tree

/-- The mark ` standalone="no"`, which the book toolchain does not take. -/
def refusedMark : List Char :=
  [' ', 's', 't', 'a', 'n', 'd', 'a', 'l', 'o', 'n', 'e', '=', '"', 'n', 'o', '"']

theorem toList_refusedMark : " standalone=\"no\"".toList = refusedMark := by
  decide

theorem refusedMark_ne_nil : refusedMark ≠ [] := by
  simp [refusedMark]

/-! ### The declaration -/

def declarationLead : List Char :=
  ['<', '?', 'x', 'm', 'l', ' ', 'v', 'e', 'r', 's', 'i', 'o', 'n', '=', '"', '1', '.', '0', '"',
    ' ', 'e', 'n', 'c', 'o', 'd', 'i', 'n', 'g', '=', '"', 'U', 'T', 'F', '-', '8', '"']

theorem writtenDeclaration_eq (standalone : Option String) :
    writtenDeclaration standalone = declarationLead ++
      ((standalone.map (writtenAttribute "standalone")).getD [] ++ ['?', '>', '\n']) := by
  have hlead : "<?xml version=\"1.0\" encoding=\"UTF-8\"".toList = declarationLead := by decide
  rw [← hlead, ← List.append_assoc]
  rfl

theorem eq_no_of_escapeValue {value : String} (h : escapeValue value = ['n', 'o']) :
    value = "no" := by
  have hno : escapeValue "no" = ['n', 'o'] := by decide
  have hvalue := unescape_escapeValue value
  rw [h, ← hno, unescape_escapeValue, Except.ok.injEq] at hvalue
  exact hvalue.symm

theorem eq_of_prefix_quoted {text rest : List Char} (hq : '"' ∉ text)
    (h : ['n', 'o', '"'] <+: text ++ '"' :: rest) : text = ['n', 'o'] := by
  match text with
  | [] => simp at h
  | [c] => simp at h
  | [c, d] => simpa [eq_comm] using h
  | c :: d :: e :: text => simp_all

theorem refusedMark_not_infix {standalone : Option String} (hs : standalone ≠ some "no") :
    ¬ refusedMark <:+: writtenDeclaration standalone := by
  rw [writtenDeclaration_eq]
  cases standalone with
  | none => decide
  | some value =>
      have hquote : '"' ∉ escapeValue value := fun h => (Token.ne_of_mem_escapeValue h).1 rfl
      suffices h : ¬ ['n', 'o', '"'] <+: escapeValue value ++ ['"', '?', '>', '\n'] ∧
          ¬ refusedMark <:+: escapeValue value ++ ['"', '?', '>', '\n'] by
        simpa [refusedMark, List.infix_cons_iff, writtenAttribute, declarationLead] using h
      refine ⟨fun h => hs (congrArg some (eq_no_of_escapeValue (eq_of_prefix_quoted hquote h))),
        fun h => ?_⟩
      -- The mark has two quotes.
      have hcount := h.sublist.count_le '"'
      rw [List.count_append, List.count_eq_zero.2 hquote] at hcount
      exact absurd hcount (by decide)

/-- Erasing takes the mark from the declaration and leaves the rest of it. -/
theorem eraseMatches_writtenDeclaration (standalone : Option String) (rest : List Char) :
    eraseMatches (widthOf refusedMark) (writtenDeclaration standalone ++ rest) =
      writtenDeclaration (standalone.filter (· ≠ "no")) ++
        eraseMatches (widthOf refusedMark) rest := by
  have hline : '\n' ∉ refusedMark := by decide
  by_cases hs : standalone = some "no"
  · have hcut : Uncut refusedMark declarationLead := fun tail ht hne => by
      have hall : ∀ tail ∈ declarationLead.tails, tail ≠ [] →
          after? refusedMark (tail ++ refusedMark) = none := by decide
      exact hall tail ((List.mem_tails _ _).2 ht) hne
    calc
      _ = eraseMatches (widthOf refusedMark)
          (declarationLead ++ (refusedMark ++ (['?', '>'] ++ '\n' :: rest))) := by
        rw [hs, writtenDeclaration_eq]
        simp only [List.append_assoc]
        rfl
      _ = declarationLead ++ (['?', '>'] ++ '\n' :: eraseMatches (widthOf refusedMark) rest) := by
        rw [eraseMatches_of_uncut hcut refusedMark_ne_nil,
          eraseMatches_append_cons hline refusedMark_ne_nil (by decide)]
      _ = writtenDeclaration (standalone.filter (· ≠ "no")) ++
          eraseMatches (widthOf refusedMark) rest := by
        have hfilter : (some "no").filter (· ≠ "no") = none := rfl
        rw [hs, hfilter, writtenDeclaration_eq]
        simp
  · have hfilter : standalone.filter (· ≠ "no") = standalone := by
      cases standalone with
      | none => rfl
      | some value => exact Option.filter_some_pos (by simpa using hs)
    obtain ⟨before, hbefore⟩ : ∃ before, writtenDeclaration standalone = before ++ ['\n'] :=
      ⟨declarationLead ++ ((standalone.map (writtenAttribute "standalone")).getD [] ++
        ['?', '>']), by simp [writtenDeclaration_eq]⟩
    have hnot : ¬ refusedMark <:+: before := fun h =>
      refusedMark_not_infix hs (hbefore ▸ h.trans (List.prefix_append _ _).isInfix)
    rw [hfilter, hbefore, List.append_assoc, List.singleton_append,
      eraseMatches_append_cons hline refusedMark_ne_nil hnot, List.append_assoc,
      List.singleton_append]

theorem print_toList (s : Settings) (d : Document) : (print s d).toList =
    eraseMatches (widthOf refusedMark) (({ indent := s.indent } : Layout).written d) := by
  rw [print, eraseAll, String.toList_ofList, toList_refusedMark, Layout.toList_print]

theorem print_toList_cleared (s : Settings) (d : Document) : (print s d).toList =
    writtenDeclaration (d.standalone.filter (· ≠ "no")) ++ eraseMatches (widthOf refusedMark)
      (({ indent := s.indent } : Layout).writtenTree d.tree d.xmlns) := by
  rw [print_toList, written, if_pos rfl, eraseMatches_writtenDeclaration]

/-- Only the declaration changes exactly if the mark is nowhere in the tree as it is written. -/
theorem print_eq_iff (s : Settings) (d : Document) :
    print s d = ({ indent := s.indent } : Layout).print
        { d with standalone := d.standalone.filter (· ≠ "no") } ↔
      ¬ refusedMark <:+: ({ indent := s.indent } : Layout).writtenTree d.tree d.xmlns := by
  rw [← String.toList_inj, print_toList_cleared, Layout.toList_print, written, if_pos rfl,
    List.append_cancel_left_eq, eraseMatches_eq_self_iff refusedMark_ne_nil]

/-! ### The nodes -/

/-- The nodes that are written when the node `top` is: this one, and the children of each element
among them. -/
inductive Shown (t : Tree) (top : NodeId) : NodeId → Prop
  | top : Shown t top top
  | child {p c : NodeId} {n : Node} (h : Shown t top p) (hn : t.get? p = some n)
      (he : n.isElement = true) (hc : c ∈ n.children) : Shown t top c

/-- What a child is among its siblings: a text as it is written, and a bracket for any other node. -/
def outline (t : Tree) (c : NodeId) : List Char :=
  match t.text? c with
  | some value => escapeData value
  | none => ['<']

/-- The mark is in what is written for the node alone: in the tag of an element, in the texts side by
side right below it, or in a node that is neither an element nor a text. -/
def Bears (t : Tree) (xmlns : Option String) (i : NodeId) : Prop :=
  ∃ n, t.get? i = some n ∧
    if n.isElement then
      refusedMark <:+: writtenHead n xmlns ∨ refusedMark <:+: n.children.flatMap (outline t)
    else n.isText = false ∧ refusedMark <:+: writtenLeaf n

section Shown

variable {t : Tree}

theorem Shown.within (hf : Forest t) {top i : NodeId} (h : Shown t top i) : Within t i top := by
  induction h with
  | top => exact .refl top
  | child _ hn _ hc ih =>
      exact .step (hf.mem_childrenOf.1 (childrenOf_of_get? hn ▸ hc)) ih

theorem Shown.of_child {top c i : NodeId} {n : Node} (hn : t.get? top = some n)
    (he : n.isElement = true) (hc : c ∈ n.children) (h : Shown t c i) : Shown t top i := by
  induction h with
  | top => exact .child .top hn he hc
  | child _ hp hpe hpc ih => exact .child ih hp hpe hpc

theorem shown_iff {top i : NodeId} : Shown t top i ↔
    i = top ∨ ∃ n, t.get? top = some n ∧ n.isElement = true ∧ ∃ c ∈ n.children, Shown t c i := by
  constructor
  · intro h
    induction h with
    | top => exact .inl rfl
    | @child p c n hp hn he hc ih =>
        rcases ih with rfl | ⟨m, hm, hme, d, hd, hdp⟩
        · exact .inr ⟨n, hn, he, c, hc, .top⟩
        · exact .inr ⟨m, hm, hme, d, hd, .child hdp hn he hc⟩
  · rintro (rfl | ⟨n, hn, he, c, hc, h⟩)
    · exact .top
    · exact h.of_child hn he hc

end Shown

/-- Markup that is written begins and ends with a bracket. -/
theorem exists_writtenBelow_eq (l : Layout) {t : Tree} (hf : Forest t) {id : NodeId} {n : Node}
    (hn : t.get? id = some n) (ht : n.isText = false) (depth : Nat) (spread : Bool)
    (xmlns : Option String) :
    ∃ inside, l.writtenBelow t depth spread xmlns id = '<' :: (inside ++ ['>']) := by
  obtain ⟨head, hhead⟩ : ∃ head, writtenHead n xmlns = '<' :: head := ⟨_, rfl⟩
  cases he : n.isElement with
  | true =>
      by_cases hc : n.children = []
      · rw [l.writtenBelow_empty hn depth spread xmlns he hc, hhead]
        exact ⟨head ++ ['/'], by simp⟩
      · rw [l.writtenBelow_nested hn depth spread xmlns hf he hc rfl, hhead, List.cons_append]
        simp only [← List.cons_append, ← List.append_assoc]
        exact ⟨_, rfl⟩
  | false =>
      rw [l.writtenBelow_leaf hn depth spread xmlns he, writtenLeaf]
      cases hk : n.kind with
      | element => simp [Node.isElement, hk] at he
      | text => simp [Node.isText, hk] at ht
      | cdata => exact ⟨['!', '[', 'C', 'D', 'A', 'T', 'A', '['] ++ n.value.toList ++ [']', ']'],
          by simp⟩
      | comment => exact ⟨['!', '-', '-'] ++ n.value.toList ++ ['-', '-'], by simp⟩
      | instruction => exact ⟨['?'] ++ n.name.toList ++
          (if n.value = "" then [] else ' ' :: n.value.toList) ++ ['?'], by simp⟩

section Siblings

variable {t : Tree}

/-- Among siblings, the mark is in texts side by side or within one node. -/
theorem refusedMark_infix_siblings_iff (W : NodeId → List Char) (cs : List NodeId)
    (lead before : List Char)
    (htext : ∀ c ∈ cs, ∀ v, t.text? c = some v → W c = escapeData v)
    (hmarkup : ∀ c ∈ cs, t.text? c = none → ∃ inside, W c = '<' :: (inside ++ ['>'])) :
    refusedMark <:+: before ++ cs.flatMap (fun c => lead ++ W c) ↔
      refusedMark <:+: before ++ cs.flatMap (fun c => lead ++ outline t c) ∨
        ∃ c ∈ cs, t.text? c = none ∧ refusedMark <:+: W c := by
  have hopen : '<' ∉ refusedMark := by decide
  have hclose : '>' ∉ refusedMark := by decide
  induction cs generalizing before with
  | nil => simp
  | cons c cs ih =>
      have htext' := fun d hd => htext d (List.mem_cons_of_mem c hd)
      have hmarkup' := fun d hd => hmarkup d (List.mem_cons_of_mem c hd)
      rw [List.flatMap_cons, List.flatMap_cons]
      cases hc : t.text? c with
      | some v =>
          have hout : outline t c = W c := by rw [outline, hc, htext c List.mem_cons_self v hc]
          have hrest := ih (before ++ (lead ++ W c)) htext' hmarkup'
          simp only [List.append_assoc] at hrest
          rw [hout]
          simpa [hc] using hrest
      | none =>
          obtain ⟨inside, hw⟩ := hmarkup c List.mem_cons_self hc
          have hout : outline t c = ['<'] := by rw [outline, hc]
          have hin : refusedMark <:+: W c ↔ refusedMark <:+: inside := by
            rw [hw, infix_cons_iff_of_not_mem hopen refusedMark_ne_nil,
              infix_append_cons_iff hclose]
            simp [refusedMark_ne_nil]
          have hrest := ih [] htext' hmarkup'
          simp only [List.nil_append] at hrest
          -- The brackets of the node keep what is before it, in it and after it apart.
          calc
            _ ↔ refusedMark <:+: (before ++ lead) ++ '<' :: (inside ++ '>' ::
                cs.flatMap fun c => lead ++ W c) := by
              rw [hw]
              simp
            _ ↔ refusedMark <:+: before ++ lead ∨ refusedMark <:+: W c ∨
                refusedMark <:+: cs.flatMap (fun c => lead ++ outline t c) ∨
                  ∃ c ∈ cs, t.text? c = none ∧ refusedMark <:+: W c := by
              rw [infix_append_cons_iff hopen, infix_append_cons_iff hclose, hin]
              exact or_congr_right (or_congr_right hrest)
            _ ↔ refusedMark <:+: (before ++ lead) ++ '<' ::
                  cs.flatMap (fun c => lead ++ outline t c) ∨
                ∃ d ∈ c :: cs, t.text? d = none ∧ refusedMark <:+: W d := by
              rw [infix_append_cons_iff hopen]
              simp only [List.mem_cons, exists_eq_or_imp, hc, true_and]
              exact (or_congr_right or_left_comm).trans or_assoc.symm
            _ ↔ _ := by
              rw [hout]
              simp

/-- The blanks of the lines do not matter to the mark. -/
theorem refusedMark_infix_outlines_iff {l : Layout} {cs : List NodeId} {inner : Bool} (depth : Nat)
    (hi : inner = true → ∀ c ∈ cs, t.text? c = none) :
    refusedMark <:+: cs.flatMap (fun c => l.lead inner depth ++ outline t c) ↔
      refusedMark <:+: cs.flatMap (outline t) := by
  cases inner with
  | false => simp [lead]
  | true =>
      have hout (c : NodeId) (hc : c ∈ cs) : outline t c = ['<'] := by rw [outline, hi rfl c hc]
      have hno (text : List Char) (h : 's' ∉ text) : ¬ refusedMark <:+: text := fun hm =>
        h (hm.subset (by decide))
      refine iff_of_false (hno _ fun hm => ?_) (hno _ fun hm => ?_)
      · obtain ⟨c, hc, hm⟩ := List.mem_flatMap.1 hm
        rw [hout c hc] at hm
        simp [lead, line] at hm
      · obtain ⟨c, hc, hm⟩ := List.mem_flatMap.1 hm
        simp [hout c hc] at hm

end Siblings

/-! ### The tree -/

/-- Only the node itself is written with the namespace. -/
theorem exists_shown_bears_iff {t : Tree} (hf : Forest t) {id : NodeId} {n : Node}
    (hn : t.get? id = some n) (xmlns : Option String) :
    (∃ i, Shown t id i ∧ Bears t (if i = id then xmlns else none) i) ↔
      Bears t xmlns id ∨ n.isElement = true ∧
        ∃ c ∈ n.children, ∃ i, Shown t c i ∧ Bears t none i := by
  constructor
  · rintro ⟨i, hi, hb⟩
    rcases shown_iff.1 hi with rfl | ⟨m, hm, he, c, hc, hci⟩
    · exact .inl (by simpa using hb)
    · obtain rfl := Option.some.inj (hn.symm.trans hm)
      have hp : t.parentOf c = some id := hf.mem_childrenOf.1 (childrenOf_of_get? hn ▸ hc)
      have hne : i ≠ id := fun h => hf.not_within_parent hp (h ▸ hci.within hf)
      exact .inr ⟨he, c, hc, i, hci, by simpa [hne] using hb⟩
  · rintro (hb | ⟨he, c, hc, i, hci, hb⟩)
    · exact ⟨id, .top, by simpa using hb⟩
    · have hp : t.parentOf c = some id := hf.mem_childrenOf.1 (childrenOf_of_get? hn ▸ hc)
      have hne : i ≠ id := fun h => hf.not_within_parent hp (h ▸ hci.within hf)
      exact ⟨i, hci.of_child hn he hc, by simpa [hne] using hb⟩

theorem not_bears_of_text {t : Tree} {c i : NodeId} {v : String} (hv : t.text? c = some v)
    (h : Shown t c i) (xmlns : Option String) : ¬ Bears t xmlns i := by
  obtain ⟨n, hn, ht, -⟩ := text?_eq_some_iff.1 hv
  have he : n.isElement = false := by
    cases hk : n.kind <;> simp_all [Node.isText, Node.isElement]
  rcases shown_iff.1 h with rfl | ⟨m, hm, hme, -⟩
  · simp [Bears, hn, he, ht]
  · simp_all

theorem refusedMark_infix_append_lead (l : Layout) (inner : Bool) (depth : Nat)
    (text : List Char) :
    refusedMark <:+: text ++ l.lead inner depth ↔ refusedMark <:+: text := by
  cases inner with
  | false => simp [lead]
  | true =>
      have hline : '\n' ∉ refusedMark := by decide
      have hblank : ¬ refusedMark <:+: List.replicate (l.indent * depth) ' ' := fun h => by
        have hs := List.eq_of_mem_replicate (h.subset (show 's' ∈ refusedMark by decide))
        simp at hs
      rw [lead, if_pos rfl, line, infix_append_cons_iff hline, or_iff_left hblank]

theorem refusedMark_infix_endTag_iff (n : Node) :
    refusedMark <:+: '/' :: (n.name.toList ++ ['>']) ↔ refusedMark <:+: n.name.toList := by
  have hslash : '/' ∉ refusedMark := by decide
  have hclose : '>' ∉ refusedMark := by decide
  rw [infix_cons_iff_of_not_mem hslash refusedMark_ne_nil, infix_append_cons_iff hclose,
    List.infix_nil, or_iff_left refusedMark_ne_nil]

theorem name_infix_writtenHead (n : Node) (xmlns : Option String) :
    n.name.toList <:+: writtenHead n xmlns :=
  (List.suffix_cons '<' _).isInfix.trans
    ((List.prefix_append _ _).trans (List.prefix_append _ _)).isInfix

/-- The mark is in the written form of a node exactly if one of the nodes in it bears it. -/
theorem refusedMark_infix_writtenBelow_iff (l : Layout) {t : Tree} (hf : Forest t) {id : NodeId}
    {n : Node} (hn : t.get? id = some n) (ht : n.isText = false) (depth : Nat) (spread : Bool)
    (xmlns : Option String) :
    refusedMark <:+: l.writtenBelow t depth spread xmlns id ↔
      ∃ i, Shown t id i ∧ Bears t (if i = id then xmlns else none) i := by
  have hclose : '>' ∉ refusedMark := by decide
  have hopen : '<' ∉ refusedMark := by decide
  induction id using hf.induction_children generalizing n depth spread xmlns with
  | step id ih =>
      rw [exists_shown_bears_iff hf hn]
      cases he : n.isElement with
      | false => simp [l.writtenBelow_leaf hn _ _ _ he, Bears, hn, he, ht]
      | true =>
          have hbears : Bears t xmlns id ↔ refusedMark <:+: writtenHead n xmlns ∨
              refusedMark <:+: n.children.flatMap (outline t) := by
            simp [Bears, hn, he]
          have hchild (c : NodeId) (hc : c ∈ n.children) (hv : t.text? c = none) :
              ∃ m, t.get? c = some m ∧ m.isText = false := by
            obtain ⟨m, hg, -⟩ := (hf.linked hn).1 hc
            exact ⟨m, hg, text?_eq_none_iff.1 hv m hg⟩
          by_cases hc : n.children = []
          · have hslash : '/' ∉ refusedMark := by decide
            have hend : ¬ refusedMark <:+: ['>'] := by decide
            rw [l.writtenBelow_empty hn _ _ _ he hc, hbears, hc, infix_append_cons_iff hslash,
              or_iff_left hend]
            simp [refusedMark_ne_nil]
          · obtain ⟨inner, hi⟩ : ∃ inner, inner = (spread && !t.mixes n.children) := ⟨_, rfl⟩
            have hmark : inner = true → ∀ c ∈ n.children, t.text? c = none := fun h =>
              text?_of_not_mixes (Bool.not_eq_true' _ ▸ (Bool.and_eq_true_iff.1 (hi ▸ h)).2)
            have hkids := refusedMark_infix_siblings_iff
              (l.writtenBelow t (depth + 1) inner none) n.children (l.lead inner (depth + 1)) []
              (fun c _ v hv => l.writtenBelow_text _ _ _ hv) fun c hm hv => by
                obtain ⟨m, hg, ht⟩ := hchild c hm hv
                exact exists_writtenBelow_eq l hf hg ht _ _ _
            rw [List.nil_append, List.nil_append, refusedMark_infix_outlines_iff _ hmark] at hkids
            have hbelow : (∃ c ∈ n.children, t.text? c = none ∧
                refusedMark <:+: l.writtenBelow t (depth + 1) inner none c) ↔
                ∃ c ∈ n.children, ∃ i, Shown t c i ∧ Bears t none i := by
              refine exists_congr fun c => and_congr_right fun hm => ?_
              cases hv : t.text? c with
              | some v =>
                  simpa using fun i hi => not_bears_of_text hv hi none
              | none =>
                  obtain ⟨m, hg, ht⟩ := hchild c hm hv
                  have hc := ih c (childrenOf_of_get? hn ▸ hm) hg ht (depth + 1) inner none
                  simpa using hc
            have hname : refusedMark <:+: n.name.toList → refusedMark <:+: writtenHead n xmlns :=
              fun h => h.trans (name_infix_writtenHead n xmlns)
            rw [l.writtenBelow_nested hn _ _ _ hf he hc hi, infix_append_cons_iff hclose,
              ← List.append_assoc, infix_append_cons_iff hopen, refusedMark_infix_append_lead,
              refusedMark_infix_endTag_iff, hkids, hbelow, hbears]
            constructor
            · rintro (h | (h | h) | h)
              · exact .inl (.inl h)
              · exact .inl (.inr h)
              · exact .inr ⟨rfl, h⟩
              · exact .inl (.inl (hname h))
            · rintro ((h | h) | ⟨-, h⟩)
              · exact .inl h
              · exact .inr (.inl (.inl h))
              · exact .inr (.inl (.inr h))

/-- The mark is in the written form of a tree exactly if a node that is shown from the root bears
it. -/
theorem refusedMark_infix_writtenTree_iff (l : Layout) {t : Tree} (hf : Forest t)
    (xmlns : Option String) :
    refusedMark <:+: l.writtenTree t xmlns ↔ ∃ root, t.root = some root ∧
      ∃ i, Shown t root i ∧ Bears t (if i = root then xmlns else none) i := by
  cases hr : t.root with
  | none => simp [writtenTree, hr, refusedMark_ne_nil]
  | some root =>
      obtain ⟨n, hn, he⟩ := hf.elementRoot hr
      have ht : n.isText = false := by
        cases hk : n.kind <;> simp_all [Node.isText, Node.isElement]
      have hline : '\n' ∉ refusedMark := by decide
      have htree : l.writtenTree t xmlns = l.writtenBelow t 0 true xmlns root ++ ['\n'] := by
        rw [writtenTree, hr]
        rfl
      rw [htree, infix_append_cons_iff hline, List.infix_nil, or_iff_left refusedMark_ne_nil,
        refusedMark_infix_writtenBelow_iff l hf hn ht]
      simp

/-- The published text has a declaration that is not `standalone="no"`, and after it the tree as it
is written, but without the mark. So the declaration is the only thing that changes exactly if no
node that is written bears the mark. -/
theorem print_clears_declaration (s : Settings) (d : Document) (hf : Forest d.tree) :
    (print s d).toList = writtenDeclaration (d.standalone.filter (· ≠ "no")) ++
        eraseMatches (widthOf refusedMark)
          (({ indent := s.indent } : Layout).writtenTree d.tree d.xmlns) ∧
      (print s d = ({ indent := s.indent } : Layout).print
          { d with standalone := d.standalone.filter (· ≠ "no") } ↔
        ∀ root, d.tree.root = some root → ∀ i, Shown d.tree root i →
          ¬ Bears d.tree (if i = root then d.xmlns else none) i) := by
  refine ⟨print_toList_cleared s d, ?_⟩
  rw [print_eq_iff, refusedMark_infix_writtenTree_iff _ hf]
  simp only [not_exists, not_and]

/-- With an empty root nothing but the declaration changes. -/
theorem print_of_empty_root :
    ∃ d, Document.parse {} "<?xml version=\"1.0\" standalone=\"no\"?><a/>" = .ok d ∧
      d.standalone = some "no" ∧
      print {} d = "<?xml version=\"1.0\" encoding=\"UTF-8\"?>\n<a/>\n" := by
  have hread : Document.read {} "<?xml version=\"1.0\" standalone=\"no\"?><a/>" =
      ⟨{ tree := ⟨#[Node.element "a"], some 0⟩, standalone := some "no" }, none⟩ := by
    decide +kernel
  have hparse : Document.parse {} "<?xml version=\"1.0\" standalone=\"no\"?><a/>" =
      .ok { tree := ⟨#[Node.element "a"], some 0⟩, standalone := some "no" } := by
    rw [Document.parse, hread]
  refine ⟨_, hparse, rfl, ?_⟩
  rw [(print_clears_declaration {} _ (Document.proper_of_parse hparse).forest).2.2]
  · decide +kernel
  · rintro root ⟨⟩ i hi
    rcases shown_iff.1 hi with rfl | ⟨n, ⟨⟩, -, c, hc, -⟩
    · rintro ⟨n, ⟨⟩, hb⟩
      revert hb
      decide +kernel
    · simp [Node.element] at hc

/-- Text that has the mark loses it. -/
theorem print_of_marked_text : ∃ d, Document.parse {} "<a>x standalone=\"no\"</a>" = .ok d ∧
    print {} d ≠ ({} : Layout).print { d with standalone := d.standalone.filter (· ≠ "no") } :=
  exists_ok_of_any (by decide +kernel)

end BookMarkup.Publisher
