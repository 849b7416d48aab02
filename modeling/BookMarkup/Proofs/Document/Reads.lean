import BookMarkup.Proofs.Document.Reading
import BookMarkup.Proofs.Token.Local

/-!
Readings that succeed, token by token. Each token takes the reader one step on, with the elements
that are open for the scanner kept by their full names. Character data may be taken in pieces, and
while no element is open it does not matter at all.
-/

namespace BookMarkup

namespace Reader

open Token Text

/-- The text is read up to its end, from the reader `r` to the reader `r'`; `names` are the open
elements as the scanner knows them. -/
inductive Reads (o : Options) : List String → List Char → Reader → Reader → Prop
  | done {names : List String} {r : Reader} (ho : r.opened = []) : Reads o names [] r r
  | token {names names' : List String} {c : Char} {cs rest : List Char} {token : Token}
      {r r₁ r' : Reader} (hn : next c cs = .ok (token, rest)) (ho : nest names token = .ok names')
      (hr : (take o token).run r = .ok () r₁) (h : Reads o names' rest r₁ r') :
      Reads o names (c :: cs) r r'

section Reads

variable {o : Options} {names : List String} {text rest : List Char} {r r' : Reader}

/-- What a text is read as is what its tokens make. -/
theorem reads_iff {size : Nat} :
    Reads o names text r r' ↔ (takeAll o size (scanRest names text)).run r = .ok () r' := by
  rw [run_takeAll_ok]
  constructor
  · intro h
    induction h with
    | done ho => exact ⟨rfl, rfl, ho⟩
    | token hn ho hr _ ih =>
        rw [scanRest_cons, hn]
        simp only [ho, Readout.cons, List.forM_cons, EStateM.run_bind, hr]
        exact ih
  · rintro ⟨hr, hf, ho⟩
    -- A token takes up characters, so that the induction is on the length of the text.
    induction hl : text.length using Nat.strongRecOn generalizing names text r with
    | ind length ih =>
        cases text with
        | nil =>
            rw [scanRest_nil, List.forM_nil, EStateM.run_pure, EStateM.Result.ok.injEq] at hr
            obtain rfl := hr.2
            exact .done ho
        | cons c cs =>
            rw [scanRest_cons] at hr hf
            cases hn : next c cs with
            | error spot => simp [hn] at hf
            | ok found =>
                obtain ⟨token, rest⟩ := found
                rw [hn] at hr hf
                cases ho' : nest names token with
                | error flaw => simp [ho'] at hf
                | ok names' =>
                    simp only [ho', Readout.cons] at hr hf
                    obtain ⟨r₁, hr₁, hr⟩ := run_forM_take_cons_eq_ok.1 hr
                    have hlt : rest.length < length := by
                      rw [← hl, List.length_cons]
                      exact Nat.lt_succ_of_le (length_next hn)
                    exact .token hn ho' hr₁ (ih rest.length hlt hr hf rfl)

/-- What the first token makes of the reader, and how the reading goes on. -/
theorem Reads.exists_of_next {c : Char} {cs : List Char} {token : Token}
    (h : Reads o names (c :: cs) r r') (hn : next c cs = .ok (token, rest)) :
    ∃ names' r₁, nest names token = .ok names' ∧ (take o token).run r = .ok () r₁ ∧
      Reads o names' rest r₁ r' := by
  cases h with
  | token hn' ho hr h =>
      rw [hn, Except.ok.injEq, Prod.mk.injEq] at hn'
      obtain ⟨rfl, rfl⟩ := hn'
      exact ⟨_, _, ho, hr, h⟩

/-- Character data goes to the run, up to the next markup. -/
theorem reads_stretch (text : List Char) :
    Reads o names text r r' ↔ Reads o names (text.dropWhile isPlain)
      { r with run := r.run ++ String.ofList (text.takeWhile isPlain) } r' := by
  cases text with
  | nil => simp
  | cons c cs =>
      by_cases hc : isPlain c
      · have hne : c ≠ '<' ∧ c ≠ '&' := by simpa [isPlain] using hc
        have hn : next c cs =
            .ok (.text (String.ofList (c :: cs.takeWhile isPlain)), cs.dropWhile isPlain) := by
          rw [next, if_neg hne.1, if_neg hne.2]
        rw [List.dropWhile_cons_of_pos hc, List.takeWhile_cons_of_pos hc]
        constructor
        · intro h
          obtain ⟨names', r₁, ho, hr, h⟩ := h.exists_of_next hn
          obtain rfl := Except.ok.inj ho
          rw [run_take_text, EStateM.Result.ok.injEq] at hr
          exact hr.2 ▸ h
        · intro h
          exact .token hn rfl (run_take_text o r _) h
      · rw [List.dropWhile_cons_of_neg hc, List.takeWhile_cons_of_neg hc]
        simp

/-- Character data may be taken in pieces. -/
theorem reads_plain {piece : List Char} (h : ∀ c ∈ piece, isPlain c) :
    Reads o names (piece ++ text) r r' ↔
      Reads o names text { r with run := r.run ++ String.ofList piece } r' := by
  rw [reads_stretch (piece ++ text), reads_stretch text, List.dropWhile_append_of_pos h,
    List.takeWhile_append_of_pos h, String.ofList_append, String.append_assoc]

/-! ### Outside the root -/

/-- Where no element is open, the run has no say in what a token makes, unless it is lost later. -/
theorem take_of_top {token : Token} (ho : r.opened = []) (run : String)
    (hr : (take o token).run r = .ok () r') :
    (take o token).run { r with run } = .ok () r' ∨
      r'.opened = [] ∧ ∃ run', (take o token).run { r with run } = .ok () { r' with run := run' } := by
  have hflush (closing : Bool) : flush o closing { r with run } = flush o closing r := by
    simp only [flush, ho]
  cases token with
  | startTag tag =>
      rw [run_take_startTag, hflush]
      exact .inl (by rwa [run_take_startTag] at hr)
  | emptyTag tag =>
      rw [run_take_emptyTag, hflush]
      exact .inl (by rwa [run_take_emptyTag] at hr)
  | endTag name =>
      rw [run_take_endTag, hflush]
      exact .inl (by rwa [run_take_endTag] at hr)
  | text characters =>
      rw [run_take_text, EStateM.Result.ok.injEq] at hr
      obtain ⟨_, rfl⟩ := hr
      exact .inr ⟨ho, run ++ characters, rfl⟩
  | reference name =>
      rw [run_take_reference] at hr ⊢
      cases hc : Reference.inData name.toList with
      | none => simp [hc] at hr
      | some c =>
          simp only [hc, EStateM.Result.ok.injEq] at hr
          obtain ⟨_, rfl⟩ := hr
          exact .inr ⟨ho, run.push c, rfl⟩
  | cdata characters =>
      rw [run_take_cdata, hflush]
      exact .inl (by rwa [run_take_cdata] at hr)
  | comment characters =>
      rw [run_take_comment, hflush]
      exact .inl (by rwa [run_take_comment] at hr)
  | instruction target data =>
      rw [run_take_instruction, hflush]
      exact .inl (by rwa [run_take_instruction] at hr)
  | declaration tag =>
      rw [take] at hr ⊢
      split at hr
      · obtain rfl := (EStateM.Result.ok.inj hr).2
        exact .inr ⟨ho, run, rfl⟩
      · obtain rfl := (EStateM.Result.ok.inj hr).2
        exact .inr ⟨ho, run, rfl⟩
  | doctype =>
      rw [run_take_doctype, EStateM.Result.ok.injEq] at hr
      obtain ⟨_, rfl⟩ := hr
      exact .inr ⟨ho, run, rfl⟩

theorem Reads.exists_of_top (h : Reads o names text r r') (ho : r.opened = []) (run : String) :
    ∃ r₂, Reads o names text { r with run } r₂ ∧ r₂.document = r'.document := by
  induction h generalizing run with
  | @done names r _ => exact ⟨{ r with run }, .done ho, rfl⟩
  | @token names names' c cs rest token r r₁ r' hn hnest hr h ih =>
      rcases take_of_top ho run hr with hr' | ⟨ho₁, run', hr'⟩
      · exact ⟨r', .token hn hnest hr' h, rfl⟩
      · obtain ⟨r₂, h₂, hd⟩ := ih ho₁ run'
        exact ⟨r₂, .token hn hnest hr' h₂, hd⟩

end Reads

end Reader

theorem Document.parse_ok_iff_reads {o : Reader.Options} {text : String} {d : Document} :
    Document.parse o text = .ok d ↔ ∃ r : Reader,
      Reader.Reads o [] (Token.withoutMark text.toList) {} r ∧ d = r.document := by
  rw [Document.parse_ok]
  exact exists_congr fun r => and_congr_left fun _ => Reader.reads_iff.symm

end BookMarkup
