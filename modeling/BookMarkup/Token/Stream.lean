import BookMarkup.Token.Scan
import Mathlib.Data.List.TakeWhile

/-!
The tokens of a text one after the other. Each token takes up characters, so that the bound on their
number never cuts a text short: `scanRest_cons` gives the tokens from the first one on.
-/

namespace BookMarkup

/-- A readout with one more item in front. -/
def Readout.cons (a : α) (r : Readout ε α) : Readout ε α where
  items := a :: r.items
  flaw := r.flaw

namespace Token

theorem length_after? {lead text rest : List Char} (h : Text.after? lead text = some rest) :
    rest.length ≤ text.length := by
  rw [Text.after?_eq_some_iff] at h
  simp [h]

theorem length_cut? {mark text a b : List Char} (h : Text.cut? mark text = some (a, b)) :
    b.length ≤ text.length := by
  rw [Text.eq_of_cut? h]
  simp only [List.length_append]
  omega

theorem length_tagEnd {quote : Option Char} {seen text a b : List Char}
    (h : tagEnd quote seen text = some (a, b)) : b.length < text.length := by
  fun_induction tagEnd quote seen text with
  | case1 => simp at h
  | case2 seen c cs q ih => have := ih h; simp only [List.length_cons]; omega
  | case3 seen cs => simp only [Option.some.injEq, Prod.mk.injEq] at h; simp [h.2]
  | case4 seen c cs hc ih => have := ih h; simp only [List.length_cons]; omega

theorem length_doctypeEnd {depth : Nat} {seen text a b : List Char}
    (h : doctypeEnd depth seen text = some (a, b)) : b.length ≤ text.length := by
  fun_induction doctypeEnd depth seen text with
  | case1 => simp at h
  | case2 seen cs => simp only [Option.some.injEq, Prod.mk.injEq] at h; simp [← h.2]
  | case3 seen cs depth ih => have := ih h; simp only [List.length_cons]; omega
  | case4 depth seen c cs hc ih => have := ih h; simp only [List.length_cons]; omega

theorem length_afterKeyword? {text rest : List Char} (h : afterKeyword? text = some rest) :
    rest.length ≤ text.length := by
  simp only [afterKeyword?] at h
  split at h
  · simp only [Option.some.injEq] at h
    simp [← h]
  · simp at h

theorem length_cutAfter? {lead mark text a b : List Char}
    (h : (Text.after? lead text).bind (Text.cut? mark) = some (a, b)) : b.length ≤ text.length := by
  obtain ⟨rest, hr, hc⟩ := Option.bind_eq_some_iff.1 h
  exact Nat.le_trans (length_cut? hc) (length_after? hr)

theorem length_declared {whole text rest : List Char} {token : Token}
    (h : declared whole text = .ok (token, rest)) : rest.length ≤ text.length := by
  rw [declared.eq_def] at h
  split at h
  · split at h
    · next hc =>
      have := length_cutAfter? hc
      simp only [Except.ok.injEq, Prod.mk.injEq] at h
      simp only [List.length_cons, ← h.2]
      omega
    · simp at h
  · split at h
    · next hc =>
      have := length_cutAfter? hc
      simp only [Except.ok.injEq, Prod.mk.injEq] at h
      simp only [List.length_cons, ← h.2]
      omega
    · simp at h
  · next c cs _ _ =>
    split at h
    · split at h
      · next inside close hc =>
        obtain ⟨mid, hm, hd⟩ := Option.bind_eq_some_iff.1 hc
        have h₁ := length_afterKeyword? hm
        have h₂ := length_doctypeEnd hd
        split at h
        · simp at h
        · simp only [Except.ok.injEq, Prod.mk.injEq] at h
          rw [← h.2, List.length_tail]
          omega
      · simp at h
    · simp at h
  · simp at h

theorem length_markup {whole text rest : List Char} {token : Token}
    (h : markup whole text = .ok (token, rest)) : rest.length ≤ text.length := by
  rw [markup.eq_def] at h
  split at h
  · have := length_declared h
    simp only [List.length_cons]
    omega
  · simp at h
  · split at h
    · next hc =>
      have := length_cut? hc
      simp only [Except.ok.injEq, Prod.mk.injEq] at h
      simp only [List.length_cons, ← h.2]
      omega
    · simp at h
  · split at h
    · next hc =>
      have := length_tagEnd hc
      simp only [Except.ok.injEq, Prod.mk.injEq] at h
      simp only [List.length_cons, ← h.2]
      omega
    · simp at h
  · split at h
    · next hc =>
      have := length_tagEnd hc
      simp only [Except.ok.injEq, Prod.mk.injEq] at h
      simp only [← h.2]
      omega
    · simp at h

theorem length_referred {whole text rest : List Char} {token : Token}
    (h : referred whole text = .ok (token, rest)) : rest.length ≤ text.length := by
  simp only [referred] at h
  split at h
  · next after ha =>
    have := List.length_dropWhile_le (fun c => c != ';' && c != '&' && c != '<') text
    rw [ha] at this
    simp only [Except.ok.injEq, Prod.mk.injEq] at h
    simp only [List.length_cons, h.2] at this
    omega
  · simp at h

/-- A token takes up at least one character. -/
theorem length_next {c : Char} {cs rest : List Char} {token : Token}
    (h : next c cs = .ok (token, rest)) : rest.length ≤ cs.length := by
  simp only [next] at h
  split at h
  · exact length_markup h
  · split at h
    · exact length_referred h
    · simp only [Except.ok.injEq, Prod.mk.injEq] at h
      rw [← h.2]
      exact List.length_dropWhile_le _ _

/-- What was read earlier stays in front. -/
theorem scanFrom_earlier (count : Nat) (opened : List String) (earlier : List Token)
    (text : List Char) :
    scanFrom count opened earlier text =
      { items := earlier.reverse ++ (scanFrom count opened [] text).items
        flaw := (scanFrom count opened [] text).flaw } := by
  induction count generalizing opened earlier text with
  | zero => simp [scanFrom]
  | succ count ih =>
    cases text with
    | nil => simp [scanFrom]
    | cons c cs =>
      simp only [scanFrom]
      split
      · simp
      · split
        · simp
        · rw [ih _ (_ :: earlier), ih _ [_]]
          simp

/-- A larger bound changes nothing once it reaches the length of the text. -/
theorem scanFrom_count {count : Nat} {opened : List String} {text : List Char}
    (h : text.length ≤ count) :
    scanFrom count opened [] text = scanFrom text.length opened [] text := by
  induction count using Nat.strongRecOn generalizing opened text with
  | ind count ih =>
    cases text with
    | nil => cases count <;> simp [scanFrom]
    | cons c cs =>
      cases count with
      | zero => simp at h
      | succ count =>
        simp only [List.length_cons] at h ⊢
        simp only [scanFrom]
        split
        · rfl
        · next token rest hn =>
          have hl := length_next hn
          split
          · rfl
          · rw [scanFrom_earlier count, scanFrom_earlier cs.length, ih count (by omega) (by omega)]
            by_cases hc : cs.length < count + 1
            · rw [ih cs.length (by omega) (by omega)]
            · omega

/-- The tokens of a text in which some elements are open already, the innermost first. -/
def scanRest (opened : List String) (text : List Char) : Readout Spot Token :=
  scanFrom text.length opened [] text

@[simp] theorem scanRest_nil (opened : List String) : scanRest opened [] = ⟨[], none⟩ := rfl

/-- The tokens of a text are its first one and those of what follows it. -/
theorem scanRest_cons (opened : List String) (c : Char) (cs : List Char) :
    scanRest opened (c :: cs) =
      match next c cs with
      | .error spot => ⟨[], some spot⟩
      | .ok (token, rest) =>
        match nest opened token with
        | .error flaw => ⟨[], some ⟨flaw, c :: cs⟩⟩
        | .ok opened => (scanRest opened rest).cons token := by
  simp only [scanRest, List.length_cons, scanFrom]
  cases hn : next c cs with
  | error spot => rfl
  | ok found =>
    obtain ⟨token, rest⟩ := found
    simp only
    cases nest opened token with
    | error flaw => rfl
    | ok opened =>
      simp only
      rw [scanFrom_earlier, scanFrom_count (length_next hn)]
      rfl

end Token

end BookMarkup
