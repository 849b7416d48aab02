import BookMarkup.Proofs.Token.Leaf
import BookMarkup.Proofs.Token.Nesting
import BookMarkup.Token.Stream

/-!
How far a token looks. Markup and references end with a character of their own, so that what comes
after it has no say in what they are; character data reaches to the next markup and is looked at no
further than that.
-/

namespace BookMarkup.Token

open Text

theorem tagEnd_local {quote : Option Char} {seen text inside rest : List Char}
    (h : tagEnd quote seen text = some (inside, rest)) :
    ∃ taken, text = taken ++ '>' :: rest ∧
      ∀ rest', tagEnd quote seen (taken ++ '>' :: rest') = some (inside, rest') := by
  fun_induction tagEnd quote seen text with
  | case1 => simp at h
  | case2 seen c cs q ih =>
      obtain ⟨taken, rfl, ht⟩ := ih h
      exact ⟨c :: taken, rfl, fun rest' => by rw [List.cons_append, tagEnd, ht]⟩
  | case3 seen cs =>
      simp only [Option.some.injEq, Prod.mk.injEq] at h
      obtain ⟨rfl, rfl⟩ := h
      exact ⟨[], rfl, fun rest' => by simp [tagEnd]⟩
  | case4 seen c cs hc ih =>
      obtain ⟨taken, rfl, ht⟩ := ih h
      refine ⟨c :: taken, rfl, fun rest' => ?_⟩
      rw [List.cons_append, tagEnd]
      simp only [if_neg hc]
      exact ht rest'

theorem doctypeEnd_local {depth : Nat} {seen text inside close : List Char}
    (h : doctypeEnd depth seen text = some (inside, close)) :
    ∃ taken rest, text = taken ++ '>' :: rest ∧ close = '>' :: rest ∧
      ∀ rest', doctypeEnd depth seen (taken ++ '>' :: rest') = some (inside, '>' :: rest') := by
  fun_induction doctypeEnd depth seen text with
  | case1 => simp at h
  | case2 seen cs =>
      simp only [Option.some.injEq, Prod.mk.injEq] at h
      obtain ⟨rfl, rfl⟩ := h
      exact ⟨[], cs, rfl, rfl, fun rest' => by simp [doctypeEnd]⟩
  | case3 seen cs depth ih =>
      obtain ⟨taken, rest, rfl, rfl, ht⟩ := ih h
      refine ⟨'>' :: taken, rest, rfl, rfl, fun rest' => ?_⟩
      simp only [List.cons_append, doctypeEnd, if_true]
      exact ht rest'
  | case4 depth seen c cs hc ih =>
      obtain ⟨taken, rest, rfl, rfl, ht⟩ := ih h
      refine ⟨c :: taken, rest, rfl, rfl, fun rest' => ?_⟩
      rw [List.cons_append, doctypeEnd.eq_def]
      simp only [if_neg hc]
      exact ht rest'

theorem cut?_local {mark text inside rest : List Char} (hm : mark ≠ [])
    (h : cut? mark text = some (inside, rest)) :
    text = inside ++ mark ++ rest ∧
      ∀ rest', cut? mark (inside ++ mark ++ rest') = some (inside, rest') :=
  ⟨eq_of_cut? h, fun rest' => cut?_of_uncut (uncut_of_cut? h) hm rest'⟩

theorem afterKeyword?_local {text rest : List Char} (h : afterKeyword? text = some rest) :
    ∃ taken, text = taken ++ rest ∧ taken ≠ [] ∧
      ∀ rest', afterKeyword? (taken ++ rest') = some rest' := by
  rw [afterKeyword?] at h
  split at h
  · next hk =>
    obtain rfl := Option.some.inj h
    have hl : (text.take 7).length = 7 := by
      rw [← List.length_map Char.toUpper, hk]
      rfl
    refine ⟨text.take 7, (List.take_append_drop 7 text).symm, ?_, fun rest' => ?_⟩
    · exact List.ne_nil_of_length_pos (by omega)
    · rw [afterKeyword?, if_pos, List.drop_left' hl]
      rwa [List.take_left' hl]
  · simp at h

theorem cutAfter?_local {lead mark text inside rest : List Char} (hm : mark ≠ [])
    (h : (after? lead text).bind (cut? mark) = some (inside, rest)) :
    ∃ taken, text = taken ++ (mark ++ rest) ∧
      ∀ rest', (after? lead (taken ++ (mark ++ rest'))).bind (cut? mark) = some (inside, rest') := by
  obtain ⟨mid, ha, hc⟩ := Option.bind_eq_some_iff.1 h
  obtain ⟨rfl, hlocal⟩ := cut?_local hm hc
  refine ⟨lead ++ inside, ?_, fun rest' => ?_⟩
  · rw [after?_eq_some_iff.1 ha]
    simp only [List.append_assoc]
  · rw [List.append_assoc, after?_append, ← List.append_assoc]
    exact hlocal rest'

section Markup

variable {whole text rest : List Char} {token : Token}

theorem declared_doctype (whole : List Char) {c : Char} (hc : c = 'D' ∨ c = 'd')
    (text : List Char) : declared whole (c :: text) =
      match (afterKeyword? (c :: text)).bind (doctypeEnd 0 []) with
      | some (inside, close) =>
        if inside.all isMarkupBlank then .error ⟨.namelessDoctype, close⟩
        else .ok (.doctype, close.tail)
      | none => .error ⟨.openDoctype, whole⟩ := by
  rcases hc with rfl | rfl <;> rfl

theorem declared_local (h : declared whole text = .ok (token, rest)) :
    ∃ taken, text = taken ++ '>' :: rest ∧
      ∀ whole' rest', declared whole' (taken ++ '>' :: rest') = .ok (token, rest') := by
  rw [declared.eq_def] at h
  split at h
  · split at h
    · next hc =>
      obtain ⟨taken, rfl, ht⟩ := cutAfter?_local (by simp) hc
      simp only [Except.ok.injEq, Prod.mk.injEq] at h
      obtain ⟨rfl, rfl⟩ := h
      refine ⟨'[' :: (taken ++ [']', ']']), by simp, fun whole' rest' => ?_⟩
      have hread := ht rest'
      simp only [List.cons_append, List.append_assoc, List.nil_append] at hread ⊢
      rw [declared, hread]
    · simp at h
  · split at h
    · next hc =>
      obtain ⟨taken, rfl, ht⟩ := cutAfter?_local (by simp) hc
      simp only [Except.ok.injEq, Prod.mk.injEq] at h
      obtain ⟨rfl, rfl⟩ := h
      refine ⟨'-' :: (taken ++ ['-', '-']), by simp, fun whole' rest' => ?_⟩
      have hread := ht rest'
      simp only [List.cons_append, List.append_assoc, List.nil_append] at hread ⊢
      rw [declared, hread]
    · simp at h
  · next c cs hopen hdash =>
    split at h
    · next hd =>
      split at h
      · next inside close hc =>
        obtain ⟨mid, hk, he⟩ := Option.bind_eq_some_iff.1 hc
        obtain ⟨keyword, htext, hne, hkl⟩ := afterKeyword?_local hk
        obtain ⟨taken, after, rfl, rfl, hel⟩ := doctypeEnd_local he
        obtain ⟨d, letters, rfl⟩ := List.exists_cons_of_ne_nil hne
        obtain ⟨rfl, rfl⟩ := List.cons.inj htext
        split at h
        · simp at h
        next hname =>
        simp only [Except.ok.injEq, Prod.mk.injEq, List.tail_cons] at h
        obtain ⟨rfl, rfl⟩ := h
        refine ⟨c :: (letters ++ taken), by simp, fun whole' rest' => ?_⟩
        have hread := hkl (taken ++ '>' :: rest')
        simp only [List.cons_append, List.append_assoc] at hread ⊢
        rw [declared_doctype whole' hd, hread, Option.bind_some, hel]
        simp only [if_neg hname, List.tail_cons]
      · simp at h
    · simp at h
  · simp at h

/-- Tags that are no end tags begin with none of these characters. -/
theorem markup_tag (whole : List Char) {c : Char} (hc : c ∉ ['!', '?', '/']) (text : List Char) :
    markup whole (c :: text) =
      match tagEnd none [] (c :: text) with
      | some (inside, rest) => .ok (ofInside inside, rest)
      | none => .error ⟨.openTag, whole⟩ := by
  simp only [List.mem_cons, List.not_mem_nil, or_false, not_or] at hc
  rw [markup.eq_def]
  split
  · next he => exact absurd (List.cons.inj he).1 hc.1
  · next he => exact absurd (List.cons.inj he).1 hc.2.1
  · next he => exact absurd (List.cons.inj he).1 hc.2.1
  · next he => exact absurd (List.cons.inj he).1 hc.2.2
  · rfl

theorem markup_local (h : markup whole text = .ok (token, rest)) :
    ∃ taken, text = taken ++ '>' :: rest ∧
      ∀ whole' rest', markup whole' (taken ++ '>' :: rest') = .ok (token, rest') := by
  rw [markup.eq_def] at h
  split at h
  · obtain ⟨taken, rfl, ht⟩ := declared_local h
    exact ⟨'!' :: taken, rfl, fun whole' rest' => ht whole' rest'⟩
  · simp at h
  · next text hne =>
    split at h
    · next inside after hc =>
      obtain ⟨rfl, ht⟩ := cut?_local (by simp) hc
      simp only [Except.ok.injEq, Prod.mk.injEq] at h
      obtain ⟨rfl, rfl⟩ := h
      refine ⟨'?' :: (inside ++ ['?']), by simp, fun whole' rest' => ?_⟩
      have hhead : (inside ++ ['?', '>'] ++ rest').head? ≠ some '>' := by
        cases inside with
        | nil => simp
        | cons c inside =>
            intro hh
            obtain rfl : c = '>' := Option.some.inj hh
            exact hne _ rfl
      have hread := markup_instruction whole' hhead
      rw [ht] at hread
      simpa using hread
    · simp at h
  · split at h
    · next hc =>
      obtain ⟨taken, rfl, ht⟩ := tagEnd_local hc
      simp only [Except.ok.injEq, Prod.mk.injEq] at h
      obtain ⟨rfl, rfl⟩ := h
      refine ⟨'/' :: taken, rfl, fun whole' rest' => ?_⟩
      rw [List.cons_append, markup, ht]
    · simp at h
  · next hbang _ hquestion hslash =>
    split at h
    · next inside after hc =>
      obtain ⟨taken, rfl, ht⟩ := tagEnd_local hc
      simp only [Except.ok.injEq, Prod.mk.injEq] at h
      obtain ⟨rfl, rfl⟩ := h
      refine ⟨taken, rfl, fun whole' rest' => ?_⟩
      have hread := ht rest'
      cases taken with
      | nil =>
          rw [List.nil_append] at hread ⊢
          rw [markup_tag whole' (by decide), hread]
      | cons c taken =>
          have hc : c ∉ ['!', '?', '/'] := by
            simp only [List.mem_cons, List.not_mem_nil, or_false, not_or]
            exact ⟨fun he => hbang (taken ++ '>' :: after) (by rw [he, List.cons_append]),
              fun he => hquestion (taken ++ '>' :: after) (by rw [he, List.cons_append]),
              fun he => hslash (taken ++ '>' :: after) (by rw [he, List.cons_append])⟩
          rw [List.cons_append] at hread ⊢
          rw [markup_tag whole' hc, hread]
    · simp at h

theorem referred_local (h : referred whole text = .ok (token, rest)) :
    ∃ taken, text = taken ++ rest ∧ '<' ∉ taken ∧
      ∀ whole' rest', referred whole' (taken ++ rest') = .ok (token, rest') := by
  rw [referred] at h
  split at h
  · next after ha =>
    simp only [Except.ok.injEq, Prod.mk.injEq] at h
    obtain ⟨rfl, rfl⟩ := h
    generalize hp : (fun c => c != ';' && c != '&' && c != '<') = p at ha ⊢
    have hsemi : p ';' = false := by
      rw [← hp]
      rfl
    have hopen : p '<' = false := by
      rw [← hp]
      rfl
    have hname : ∀ x ∈ text.takeWhile p, p x = true := fun x hx => List.mem_takeWhile_imp hx
    have hstop (rest' : List Char) : ∀ x ∈ (';' :: rest').head?, p x = false := by
      simpa using hsemi
    refine ⟨text.takeWhile p ++ [';'], ?_, ?_, fun whole' rest' => ?_⟩
    · rw [List.append_assoc, List.singleton_append, ← ha, List.takeWhile_append_dropWhile]
    · rw [List.mem_append, not_or]
      exact ⟨fun hm => by simp [hname _ hm] at hopen, by decide⟩
    · rw [List.append_assoc, List.singleton_append, referred, hp,
        dropWhile_append_stop hname (hstop rest'), takeWhile_append_stop hname (hstop rest')]
      rfl
  · simp at h

end Markup

/-- A token is told by the text that it takes up, except that character data goes on as long as no
markup comes. -/
theorem next_local {c : Char} {cs rest : List Char} {token : Token}
    (h : next c cs = .ok (token, rest)) :
    ∃ taken, cs = taken ++ rest ∧
      ((∀ x ∈ c :: taken, isPlain x) ∧ token = .text (String.ofList (c :: taken)) ∨
        ∀ rest', next c (taken ++ rest') = .ok (token, rest')) := by
  rw [next] at h
  split at h
  · next hc =>
    obtain ⟨taken, rfl, ht⟩ := markup_local h
    refine ⟨taken ++ ['>'], by simp, .inr fun rest' => ?_⟩
    rw [next, if_pos hc, List.append_assoc, List.singleton_append, ht]
  · next hc =>
    split at h
    · next ha =>
      obtain ⟨taken, rfl, -, ht⟩ := referred_local h
      refine ⟨taken, rfl, .inr fun rest' => ?_⟩
      rw [next, if_neg hc, if_pos ha, ht]
    · next ha =>
      simp only [Except.ok.injEq, Prod.mk.injEq] at h
      obtain ⟨rfl, rfl⟩ := h
      refine ⟨cs.takeWhile isPlain, List.takeWhile_append_dropWhile.symm, .inl ⟨?_, rfl⟩⟩
      refine List.forall_mem_cons.2 ⟨by simp [isPlain, hc, ha], fun x hx => ?_⟩
      exact List.mem_takeWhile_imp hx

/-- The bracket that opens markup has one after it, in the same token, that closes it. -/
theorem closed_of_next {c : Char} {cs rest : List Char} {token : Token}
    (h : next c cs = .ok (token, rest)) :
    ∃ taken, cs = taken ++ rest ∧ ∀ s, s <:+ c :: taken → s.head? = some '<' → '>' ∈ s := by
  -- Outside of markup no bracket opens anything.
  have plain {taken : List Char} (ht : '<' ∉ c :: taken) (s : List Char) (hs : s <:+ c :: taken)
      (hh : s.head? = some '<') : '>' ∈ s :=
    absurd (hs.subset (List.mem_of_head? hh)) ht
  rw [next] at h
  split at h
  · next hc =>
    obtain ⟨taken, rfl, -⟩ := markup_local h
    refine ⟨taken ++ ['>'], by simp, fun s hs hh => ?_⟩
    rw [← List.cons_append, List.suffix_concat_iff] at hs
    obtain rfl | ⟨t, rfl, -⟩ := hs
    · simp at hh
    · simp
  · next hc =>
    split at h
    · next ha =>
      obtain ⟨taken, rfl, ht, -⟩ := referred_local h
      exact ⟨taken, rfl, plain (by simp [ht, Ne.symm hc])⟩
    · simp only [Except.ok.injEq, Prod.mk.injEq] at h
      obtain ⟨rfl, rfl⟩ := h
      refine ⟨cs.takeWhile isPlain, List.takeWhile_append_dropWhile.symm, plain ?_⟩
      rw [List.mem_cons, not_or]
      exact ⟨Ne.symm hc, fun hm => absurd (List.mem_takeWhile_imp hm) (by decide)⟩

/-! ### Texts with something after them -/

section Append

variable {text after : List Char}

/-- The first token of a text is the same when markup comes after the text. -/
theorem next_append {c : Char} {cs rest : List Char} {token : Token}
    (h : next c cs = .ok (token, rest)) (ha : ∀ c ∈ after.head?, isPlain c = false) :
    next c (cs ++ after) = .ok (token, rest ++ after) := by
  obtain ⟨taken, rfl, ⟨hplain, rfl⟩ | hlocal⟩ := next_local h
  · have hc : c ≠ '<' ∧ c ≠ '&' := by simpa [isPlain] using hplain c List.mem_cons_self
    rw [next, if_neg hc.1, if_neg hc.2, Except.ok.injEq, Prod.mk.injEq] at h ⊢
    rw [takeWhile_append_of_head? ha, dropWhile_append_of_head? ha]
    exact ⟨h.1, by rw [h.2]⟩
  · rw [List.append_assoc]
    exact hlocal _

theorem nest_append {names names' : List String} {token : Token} (h : nest names token = .ok names')
    (outer : List String) : nest (names ++ outer) token = .ok (names' ++ outer) := by
  cases token with
  | startTag tag =>
      obtain rfl := Except.ok.inj h
      rfl
  | endTag found =>
      cases names with
      | nil => simp [nest] at h
      | cons name names =>
          rw [nest] at h
          split at h
          · next he =>
            obtain rfl := Except.ok.inj h
            rw [List.cons_append, nest, if_pos he]
          · simp at h
  | _ =>
      obtain rfl := Except.ok.inj h
      rfl

/-- In further elements, and with markup after it, a text has the same tokens. -/
theorem scanRest_append {names names' : List String} {tokens : List Token} {n : Nat}
    (h : scanRest names text = ⟨tokens, none⟩) (hs : Stacks names tokens names' n)
    (ha : ∀ c ∈ after.head?, isPlain c = false) (outer : List String) :
    scanRest (names ++ outer) (text ++ after) =
      ⟨tokens ++ (scanRest (names' ++ outer) after).items, (scanRest (names' ++ outer) after).flaw⟩ := by
  induction hs generalizing text with
  | nil names =>
      cases text with
      | nil => rfl
      | cons c cs =>
          rw [scanRest_cons] at h
          cases hn : next c cs with
          | error spot => simp [hn] at h
          | ok found =>
              rw [hn] at h
              cases ho : nest names found.1 <;> simp [ho, Readout.cons] at h
  | @cons names names₁ names' token tokens n hnest _ ih =>
      cases text with
      | nil => simp at h
      | cons c cs =>
          rw [scanRest_cons] at h
          cases hn : next c cs with
          | error spot => simp [hn] at h
          | ok found =>
              obtain ⟨token', rest⟩ := found
              rw [hn] at h
              cases ho : nest names token' with
              | error flaw => simp [ho] at h
              | ok names₂ =>
                  simp only [ho, Readout.cons, Readout.mk.injEq, List.cons.injEq] at h
                  obtain ⟨⟨rfl, htokens⟩, hflaw⟩ := h
                  obtain rfl := Except.ok.inj (hnest.symm.trans ho)
                  have hrest : scanRest names₁ rest = ⟨tokens, none⟩ := by
                    rw [← htokens, ← hflaw]
                  rw [List.cons_append, scanRest_cons, next_append hn ha]
                  simp only [nest_append ho outer, ih hrest, Readout.cons, List.cons_append]

end Append

end BookMarkup.Token
