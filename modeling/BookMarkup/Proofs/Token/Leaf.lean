import BookMarkup.Proofs.Text.Cut
import BookMarkup.Proofs.Token.Tag
import Mathlib.Data.List.DropRight

/-!
Tokens that are nodes: CDATA, comments and processing instructions. Such a token is read back from
the written form of its node, whatever comes after it.
-/

namespace BookMarkup.Token

open Text

/-- The node that a token is. Tags, texts and references are no nodes by themselves. -/
def leaf? : Token → Option Node
  | .cdata characters => some (Node.cdata characters)
  | .comment characters => some (Node.comment characters)
  | .instruction target data => some (Node.instruction target data)
  | _ => none

def Faithful (token : Token) (content : Node) : Prop :=
  ∃ written, Layout.writtenLeaf content = '<' :: written ∧
    ∀ rest, next '<' (written ++ rest) = .ok (token, rest)

theorem faithful_cdata {inside : List Char} (h : Uncut [']', ']', '>'] inside) :
    Faithful (.cdata (String.ofList inside)) (Node.cdata (String.ofList inside)) := by
  refine ⟨_, rfl, fun rest => ?_⟩
  have hv : (Node.cdata (String.ofList inside)).value = String.ofList inside := rfl
  have hcut := cut?_of_uncut h (by simp) rest
  simp only [List.append_assoc, List.cons_append, List.nil_append] at hcut ⊢
  simp [next, markup, declared, after?, hv, hcut]

theorem faithful_comment {inside : List Char} (h : Uncut ['-', '-', '>'] inside) :
    Faithful (.comment (String.ofList inside)) (Node.comment (String.ofList inside)) := by
  refine ⟨_, rfl, fun rest => ?_⟩
  have hv : (Node.comment (String.ofList inside)).value = String.ofList inside := rfl
  have hcut := cut?_of_uncut h (by simp) rest
  simp only [List.append_assoc, List.cons_append, List.nil_append] at hcut ⊢
  simp [next, markup, declared, after?, hv, hcut]

/-! ### Processing instructions -/

theorem markup_instruction (whole : List Char) {text : List Char} (h : text.head? ≠ some '>') :
    markup whole ('?' :: text) =
      match cut? ['?', '>'] text with
      | some (inside, rest) => .ok (ofInstruction inside, rest)
      | none => .error ⟨.openInstruction, whole⟩ := by
  rw [markup.eq_def]
  split
  · next he => simp at he
  · next he =>
    rw [List.cons.injEq] at he
    simp [he.2] at h
  · next he =>
    obtain rfl := (List.cons.inj he).2
    rfl
  · next he => simp at he
  · next hne _ => exact absurd rfl (hne text)

/-- What ends an instruction is told by its first two characters. -/
theorem after?_instruction_eq_none {x y : Char} {rest rest' : List Char}
    (h : after? ['?', '>'] (x :: y :: rest) = none) :
    after? ['?', '>'] (x :: y :: rest') = none := by
  simp only [after?] at h ⊢
  split at h
  · next hx =>
    rw [if_pos hx]
    split at h
    · simp at h
    · next hy => rw [if_neg hy]
  · next hx => rw [if_neg hx]

def separated (data : List Char) : List Char :=
  if data = [] then [] else ' ' :: data

theorem uncut_separated {name body data : List Char} (h : Uncut ['?', '>'] (name ++ body))
    (hd : data <:+ body) : Uncut ['?', '>'] (name ++ separated data) := by
  have hdata : Uncut ['?', '>'] (separated data) := by
    rw [separated]
    split
    · intro tail ht hne
      exact absurd (List.suffix_nil.1 ht) hne
    · intro tail ht hne
      rcases List.suffix_cons_iff.1 ht with rfl | ht
      · simp [after?]
      · exact h tail (ht.trans (hd.trans (List.suffix_append name body))) hne
  induction name with
  | nil => exact hdata
  | cons c name ih =>
      intro tail ht hne
      rcases List.suffix_cons_iff.1 ht with rfl | ht
      · -- The name has one more character, or else the blank or the mark comes after `c`.
        have hc := h (c :: name ++ body) (List.suffix_refl _) (by simp)
        cases name with
        | cons x name => exact after?_instruction_eq_none hc
        | nil =>
            rw [separated]
            split <;> simp [after?]
      · exact ih (h.suffix (List.suffix_cons c (name ++ body))) tail ht hne

theorem ofInstruction_eq {inside : List Char} (h : (splitName inside).name ≠ "xml") :
    ofInstruction inside =
      .instruction (splitName inside).name (trimStart (String.ofList (splitName inside).body)) := by
  rw [ofInstruction]
  simp [h]

theorem head?_separated {data : List Char} {c : Char} (h : c ∈ (separated data).head?) :
    isMarkupBlank c = true := by
  rw [separated] at h
  split at h
  · simp at h
  · obtain rfl : ' ' = c := by simpa using h
    rfl

theorem trimStart_separated (data : List Char) :
    trimStart (String.ofList (separated data)) = String.ofList (data.dropWhile isSpace) := by
  rw [trimStart, String.toList_ofList, separated]
  split
  · next he => rw [he]
  · rw [List.dropWhile_cons_of_pos (by decide)]

theorem faithful_of_trimmed {name data : List Char} (hn : ∀ c ∈ name, isMarkupBlank c = false)
    (hxml : String.ofList name ≠ "xml") (hhead : name.head? ≠ some '>')
    (hd : data.dropWhile isSpace = data) (hu : Uncut ['?', '>'] (name ++ separated data)) :
    Faithful (.instruction (String.ofList name) (String.ofList data))
      (Node.instruction (String.ofList name) (String.ofList data)) := by
  refine ⟨'?' :: (name ++ separated data ++ ['?', '>']), ?_, fun rest => ?_⟩
  · simp [Layout.writtenLeaf, Node.instruction, separated]
  · have hfirst : (name ++ separated data ++ ['?', '>'] ++ rest).head? ≠ some '>' := by
      cases name with
      | nil =>
          rw [separated]
          split <;> simp
      | cons c cs => simpa using hhead
    have hsplit := splitName_append hn (fun c (hc : c ∈ (separated data).head?) =>
      head?_separated hc)
    have hread : ofInstruction (name ++ separated data) =
        .instruction (String.ofList name) (String.ofList data) := by
      rw [ofInstruction_eq (by rwa [hsplit]), hsplit, trimStart_separated, hd]
    simp only [next, if_true]
    rw [List.cons_append, markup_instruction _ hfirst, cut?_of_uncut hu (by simp)]
    simp only [hread]

theorem faithful_instruction {inside : List Char} (h : Uncut ['?', '>'] inside)
    (hhead : inside.head? ≠ some '>') (hxml : (splitName inside).name ≠ "xml") :
    ∃ target data, ofInstruction inside = .instruction target data ∧
      Faithful (.instruction target data) (Node.instruction target data) := by
  let body := inside.dropWhile (!isMarkupBlank ·)
  have hsplit : inside.takeWhile (!isMarkupBlank ·) ++ body = inside :=
    List.takeWhile_append_dropWhile
  refine ⟨_, String.ofList (body.dropWhile isSpace), ?_, faithful_of_trimmed (fun c hc => ?_) hxml
    (fun hc => hhead ?_) (List.dropWhile_idempotent _ _)
    (uncut_separated (by rwa [hsplit]) (List.dropWhile_suffix isSpace))⟩
  · rw [ofInstruction_eq hxml, trimStart, splitName, String.toList_ofList]
  · simpa using List.mem_takeWhile_imp hc
  · rw [← hsplit, List.head?_append, hc]
    rfl

/-! ### Whatever is read -/

section Read

variable {whole text rest : List Char} {token : Token} {content : Node}

theorem faithful_of_declared (h : declared whole text = .ok (token, rest))
    (hl : token.leaf? = some content) : Faithful token content := by
  rw [declared.eq_def] at h
  split at h
  · split at h
    · next inside _ hc =>
      obtain ⟨_, _, hcut⟩ := Option.bind_eq_some_iff.1 hc
      simp only [Except.ok.injEq, Prod.mk.injEq] at h
      obtain ⟨rfl, _⟩ := h
      obtain rfl := Option.some.inj hl
      exact faithful_cdata (uncut_of_cut? hcut)
    · simp at h
  · split at h
    · next inside _ hc =>
      obtain ⟨_, _, hcut⟩ := Option.bind_eq_some_iff.1 hc
      simp only [Except.ok.injEq, Prod.mk.injEq] at h
      obtain ⟨rfl, _⟩ := h
      obtain rfl := Option.some.inj hl
      exact faithful_comment (uncut_of_cut? hcut)
    · simp at h
  · split at h
    · split at h
      · split at h
        · simp at h
        · simp only [Except.ok.injEq, Prod.mk.injEq] at h
          simp [← h.1, leaf?] at hl
      · simp at h
    · simp at h
  · simp at h

theorem faithful_of_markup (h : markup whole text = .ok (token, rest))
    (hl : token.leaf? = some content) : Faithful token content := by
  rw [markup.eq_def] at h
  split at h
  · exact faithful_of_declared h hl
  · simp at h
  · next text hne =>
    split at h
    · next inside after hc =>
      have hhead : inside.head? ≠ some '>' := by
        intro hh
        obtain ⟨tail, rfl⟩ := List.head?_eq_some_iff.1 hh
        exact hne _ (eq_of_cut? hc)
      simp only [Except.ok.injEq, Prod.mk.injEq] at h
      by_cases hxml : (splitName inside).name = "xml"
      · simp [← h.1, ofInstruction, hxml, leaf?] at hl
      · obtain ⟨target, data, ht, hf⟩ := faithful_instruction (uncut_of_cut? hc) hhead hxml
        rw [ht] at h
        obtain ⟨rfl, _⟩ := h
        obtain rfl := Option.some.inj hl
        exact hf
    · simp at h
  · split at h
    · simp only [Except.ok.injEq, Prod.mk.injEq] at h
      simp [← h.1, leaf?] at hl
    · simp at h
  · split at h
    · simp only [Except.ok.injEq, Prod.mk.injEq] at h
      rw [← h.1, ofInside] at hl
      split at hl <;> simp [leaf?] at hl
    · simp at h

end Read

/-- A node that is read is read back from its written form. -/
theorem faithful_of_next {c : Char} {cs rest : List Char} {token : Token} {content : Node}
    (h : next c cs = .ok (token, rest)) (hl : token.leaf? = some content) :
    Faithful token content := by
  rw [next] at h
  split at h
  · exact faithful_of_markup h hl
  · split at h
    · rw [referred] at h
      split at h
      · simp only [Except.ok.injEq, Prod.mk.injEq] at h
        simp [← h.1, leaf?] at hl
      · simp at h
    · simp only [Except.ok.injEq, Prod.mk.injEq] at h
      simp [← h.1, leaf?] at hl

/-- What holds of every token that can come next holds of the tokens of a text. -/
theorem forall_scanFrom {P : Token → Prop}
    (h : ∀ c cs token rest, next c cs = .ok (token, rest) → P token) (count : Nat)
    (opened : List String) (earlier : List Token) (text : List Char) (he : ∀ t ∈ earlier, P t) :
    ∀ t ∈ (scanFrom count opened earlier text).items, P t := by
  induction count generalizing opened earlier text with
  | zero => simpa [scanFrom] using he
  | succ count ih =>
      cases text with
      | nil => simpa [scanFrom] using he
      | cons c cs =>
          rw [scanFrom]
          split
          · simpa using he
          · next token rest hn =>
            split
            · simpa using he
            · next opened' _ =>
              refine ih opened' (token :: earlier) rest fun t ht => ?_
              rcases List.mem_cons.1 ht with rfl | ht
              · exact h c cs t rest hn
              · exact he t ht

end BookMarkup.Token
