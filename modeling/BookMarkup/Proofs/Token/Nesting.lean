import BookMarkup.Token.Stream

/-!
Nested elements in a list of tokens. The scanner tells them by a stack of names; here they are told
by how they are built. The tokens that are still to come have to close what is open, and the first
of them says what has to follow it.
-/

namespace BookMarkup.Token

def begins : Token → Bool
  | .startTag _ => true
  | .emptyTag _ => true
  | _ => false

def isEnd : Token → Bool
  | .endTag _ => true
  | _ => false

/-- Tokens in which each element that is begun is ended under the same name, with so many elements
that are in no other one. -/
inductive Nested : Nat → List Token → Prop
  | nil : Nested 0 []
  | leaf {n : Nat} {token : Token} {tokens : List Token} (hb : token.begins = false)
      (he : token.isEnd = false) (h : Nested n tokens) : Nested n (token :: tokens)
  | empty {n : Nat} (tag : Tag) {tokens : List Token} (h : Nested n tokens) :
      Nested (n + 1) (.emptyTag tag :: tokens)
  | element {m n : Nat} (tag : Tag) {inside tokens : List Token} (inner : Nested m inside)
      (h : Nested n tokens) :
      Nested (n + 1) (.startTag tag :: (inside ++ .endTag tag.name :: tokens))

/-- Tokens that end the elements open before them, the innermost first, and after that begin so many
elements. -/
def Closing : List String → Nat → List Token → Prop
  | [], n, tokens => Nested n tokens
  | name :: names, n, tokens => ∃ m inside rest,
    tokens = inside ++ .endTag name :: rest ∧ Nested m inside ∧ Closing names n rest

section Closing

variable {names names' : List String} {m n : Nat} {tokens inside : List Token} {token : Token}

theorem not_nested_endTag (name : String) : ¬ Nested n (.endTag name :: tokens) := by
  intro h
  cases h with
  | leaf _ he _ => simp [isEnd] at he

theorem closing_nil_iff : Closing names n [] ↔ names = [] ∧ n = 0 := by
  cases names with
  | nil =>
      constructor
      · intro h
        cases h with
        | nil => exact ⟨rfl, rfl⟩
      · rintro ⟨-, rfl⟩
        exact .nil
  | cons name names => simp [Closing]

/-- What holds of the first token in an element, and in none, holds of it wherever it stands. -/
theorem closing_cons_of_nested {k : Nat}
    (h : ∀ m tokens, Nested m (token :: tokens) ↔ ∃ n, Nested n tokens ∧ m = n + k)
    (he : token.isEnd = false) :
    Closing names n (token :: tokens) ↔
      ∃ n', Closing names n' tokens ∧ n = n' + if names = [] then k else 0 := by
  cases names with
  | nil => simpa [Closing] using h n tokens
  | cons name names =>
      simp only [Closing, reduceCtorEq, if_false, Nat.add_zero, exists_eq_right']
      constructor
      · rintro ⟨m, inside, rest, heq, inner, hrest⟩
        cases inside with
        | nil => simp_all [isEnd]
        | cons t inside =>
            rw [List.cons_append, List.cons.injEq] at heq
            obtain ⟨rfl, rfl⟩ := heq
            obtain ⟨m', inner', -⟩ := (h m inside).1 inner
            exact ⟨m', inside, rest, rfl, inner', hrest⟩
      · rintro ⟨m, inside, rest, rfl, inner, hrest⟩
        exact ⟨m + k, token :: inside, rest, rfl, (h _ _).2 ⟨m, inner, rfl⟩, hrest⟩

theorem nested_leaf_iff (hb : token.begins = false) (he : token.isEnd = false) :
    Nested n (token :: tokens) ↔ Nested n tokens := by
  constructor
  · intro h
    cases h with
    | leaf _ _ h => exact h
    | empty => simp [begins] at hb
    | element => simp [begins] at hb
  · exact .leaf hb he

theorem nested_empty_iff {tag : Tag} :
    Nested m (.emptyTag tag :: tokens) ↔ ∃ n, Nested n tokens ∧ m = n + 1 := by
  constructor
  · intro h
    cases h with
    | leaf hb _ _ => simp [begins] at hb
    | empty _ h => exact ⟨_, h, rfl⟩
  · rintro ⟨n, h, rfl⟩
    exact .empty tag h

theorem nested_element_iff {tag : Tag} :
    Nested m (.startTag tag :: tokens) ↔ ∃ n, Closing [tag.name] n tokens ∧ m = n + 1 := by
  constructor
  · intro h
    cases h with
    | leaf hb _ _ => simp [begins] at hb
    | element _ inner h => exact ⟨_, ⟨_, _, _, rfl, inner, h⟩, rfl⟩
  · rintro ⟨n, ⟨k, inside, rest, rfl, inner, h⟩, rfl⟩
    exact .element tag inner h

theorem closing_startTag_iff {tag : Tag} {name : String} :
    Closing (name :: names) n (.startTag tag :: tokens) ↔
      Closing (tag.name :: name :: names) n tokens := by
  constructor
  · rintro ⟨m, inside, rest, heq, inner, hrest⟩
    cases inside with
    | nil => simp at heq
    | cons t inside =>
        rw [List.cons_append, List.cons.injEq] at heq
        obtain ⟨rfl, rfl⟩ := heq
        obtain ⟨n', ⟨k, inside₁, inside₂, rfl, inner₁, inner₂⟩, -⟩ := nested_element_iff.1 inner
        exact ⟨k, inside₁, inside₂ ++ .endTag name :: rest, by simp, inner₁, n', inside₂, rest, rfl,
          inner₂, hrest⟩
  · rintro ⟨k, inside₁, _, rfl, inner₁, n', inside₂, rest, rfl, inner₂, hrest⟩
    exact ⟨n' + 1, .startTag tag :: (inside₁ ++ .endTag tag.name :: inside₂), rest, by simp,
      .element tag inner₁ inner₂, hrest⟩

theorem closing_endTag_iff {name : String} :
    Closing (name :: names) n (.endTag name :: tokens) ↔ Closing names n tokens := by
  constructor
  · rintro ⟨m, inside, rest, heq, inner, hrest⟩
    cases inside with
    | nil => simp_all
    | cons t inside =>
        rw [List.cons_append, List.cons.injEq] at heq
        obtain ⟨rfl, rfl⟩ := heq
        exact absurd inner (not_nested_endTag name)
  · intro h
    exact ⟨0, [], tokens, rfl, .nil, h⟩

/-- The scanner's step: what the tokens have to close before and after the first one, and how many
elements this begins that are in no other one. -/
theorem closing_cons_iff (h : nest names token = .ok names') :
    Closing names n (token :: tokens) ↔ ∃ n', Closing names' n' tokens ∧
      n = n' + if names = [] ∧ token.begins then 1 else 0 := by
  have hleaf (hb : token.begins = false) (he : token.isEnd = false) (hn : names' = names) :
      Closing names n (token :: tokens) ↔ ∃ n', Closing names' n' tokens ∧
        n = n' + if names = [] ∧ token.begins then 1 else 0 := by
    rw [closing_cons_of_nested (k := 0) (fun m ts => by simp [nested_leaf_iff hb he]) he]
    simp [hb, hn]
  cases token with
  | startTag tag =>
      obtain rfl := Except.ok.inj h
      cases names with
      | nil => simpa [Closing, begins] using nested_element_iff
      | cons name names => simp [closing_startTag_iff]
  | emptyTag tag =>
      obtain rfl := Except.ok.inj h
      rw [closing_cons_of_nested (k := 1) (fun m ts => nested_empty_iff) rfl]
      simp [begins]
  | endTag found =>
      simp only [nest] at h
      split at h
      · simp at h
      · next name names =>
        split at h
        · next heq =>
          obtain rfl := Except.ok.inj h
          subst heq
          simp [closing_endTag_iff]
        · simp at h
  | text _ => exact hleaf rfl rfl (Except.ok.inj h).symm
  | reference _ => exact hleaf rfl rfl (Except.ok.inj h).symm
  | cdata _ => exact hleaf rfl rfl (Except.ok.inj h).symm
  | comment _ => exact hleaf rfl rfl (Except.ok.inj h).symm
  | instruction _ _ => exact hleaf rfl rfl (Except.ok.inj h).symm
  | declaration _ => exact hleaf rfl rfl (Except.ok.inj h).symm
  | doctype => exact hleaf rfl rfl (Except.ok.inj h).symm

end Closing

/-! ### The scanner's stack -/

/-- The scanner takes the tokens from the open elements `names` to the open elements `names'`, and
`n` of the elements begun by them are in no other one. -/
inductive Stacks : (names : List String) → List Token → (names' : List String) → (n : Nat) → Prop
  | nil (names : List String) : Stacks names [] names 0
  | cons {names names' names'' : List String} {token : Token} {tokens : List Token} {n : Nat}
      (hn : nest names token = .ok names') (h : Stacks names' tokens names'' n) :
      Stacks names (token :: tokens) names'' (n + if names = [] ∧ token.begins then 1 else 0)

/-- The tokens of a text are stacked, up to a flaw in it if there is one. -/
theorem exists_stacks (names : List String) (text : List Char) :
    ∃ names' n, Stacks names (scanRest names text).items names' n := by
  -- A token takes up characters, so that the induction is on the length of the text.
  induction hl : text.length using Nat.strongRecOn generalizing names text with
  | ind length ih =>
      cases text with
      | nil => exact ⟨names, 0, .nil names⟩
      | cons c cs =>
          rw [scanRest_cons]
          cases hn : next c cs with
          | error spot => exact ⟨names, 0, .nil names⟩
          | ok found =>
              obtain ⟨token, rest⟩ := found
              simp only
              cases ho : nest names token with
              | error flaw => exact ⟨names, 0, .nil names⟩
              | ok opened =>
                  have hlt : rest.length < length := by
                    rw [← hl, List.length_cons]
                    exact Nat.lt_succ_of_le (length_next hn)
                  obtain ⟨names', n, h⟩ := ih rest.length hlt opened rest rfl
                  exact ⟨names', _, .cons ho h⟩

theorem exists_stacks_scan (text : List Char) :
    ∃ names n, Stacks [] (scan text).items names n :=
  exists_stacks [] text

section Stacks

variable {names names' : List String} {m n : Nat} {tokens : List Token}

/-- The tokens close all that is open exactly if the scanner leaves nothing open. -/
theorem Stacks.closing_iff (h : Stacks names tokens names' n) :
    Closing names m tokens ↔ names' = [] ∧ m = n := by
  induction h generalizing m with
  | nil => exact closing_nil_iff
  | cons hn _ ih =>
      simp only [closing_cons_iff hn, ih, and_assoc, exists_and_left, exists_eq_left]

theorem Stacks.closing (h : Stacks names tokens names' n) :
    Closing names n (tokens ++ names'.map Token.endTag) := by
  induction h with
  | nil names =>
      induction names with
      | nil => exact .nil
      | cons name names ih => exact closing_endTag_iff.2 ih
  | cons hn _ ih => exact (closing_cons_iff hn).2 ⟨_, ih, rfl⟩

end Stacks

/-- An end tag among nested tokens ends an element that is begun before it. -/
theorem Nested.exists_startTag {n : Nat} {tokens before after : List Token} {name : String}
    (h : Nested n tokens) (ht : tokens = before ++ .endTag name :: after) :
    ∃ earlier tag inside m, before = earlier ++ .startTag tag :: inside ∧ tag.name = name ∧
      Nested m inside := by
  induction h generalizing before after with
  | nil => simp at ht
  | leaf _ he _ ih =>
      cases before with
      | nil =>
          obtain ⟨rfl, -⟩ := List.cons.inj ht
          simp [isEnd] at he
      | cons t before =>
          obtain ⟨rfl, rfl⟩ := List.cons.inj ht
          obtain ⟨earlier, tag, inside, m, rfl, h⟩ := ih rfl
          exact ⟨_ :: earlier, tag, inside, m, rfl, h⟩
  | empty tag _ ih =>
      cases before with
      | nil => simp at ht
      | cons t before =>
          obtain ⟨rfl, rfl⟩ := List.cons.inj ht
          obtain ⟨earlier, tag, inside, m, rfl, h⟩ := ih rfl
          exact ⟨_ :: earlier, tag, inside, m, rfl, h⟩
  | @element m n tag inside tokens inner _ ih ih' =>
      cases before with
      | nil => simp at ht
      | cons t before =>
          obtain ⟨rfl, heq⟩ := List.cons.inj ht
          have hhere (hb : before = inside) (hname : tag.name = name) :
              ∃ earlier tag' inside' m, .startTag tag :: before = earlier ++ .startTag tag' :: inside' ∧
                tag'.name = name ∧ Nested m inside' :=
            ⟨[], tag, inside, m, by rw [hb]; rfl, hname, inner⟩
          -- The end tag is that of this element, or it stands after it, or inside it.
          rcases List.append_eq_append_iff.1 heq with ⟨between, hb, heq⟩ | ⟨between, hb, heq⟩
          · cases between with
            | nil => exact hhere (by simpa using hb) (by simpa using (List.cons.inj heq).1)
            | cons t between =>
                obtain ⟨rfl, rfl⟩ := List.cons.inj heq
                obtain ⟨earlier, tag', inside', m', rfl, h⟩ := ih' rfl
                exact ⟨.startTag tag :: (inside ++ .endTag tag.name :: earlier), tag', inside', m',
                  by simp [hb], h⟩
          · cases between with
            | nil => exact hhere (by simpa using hb.symm) (by simpa using (List.cons.inj heq).1.symm)
            | cons t between =>
                obtain ⟨rfl, -⟩ := List.cons.inj heq
                obtain ⟨earlier, tag', inside', m', rfl, h⟩ := ih hb
                exact ⟨.startTag tag :: earlier, tag', inside', m', rfl, h⟩

/-- The innermost element left open is the last one with nothing but nested tokens after it. -/
theorem Stacks.exists_startTag {tokens : List Token} {name : String} {names : List String} {n : Nat}
    (h : Stacks [] tokens (name :: names) n) :
    ∃ earlier tag inside m, tokens = earlier ++ .startTag tag :: inside ∧ tag.name = name ∧
      Nested m inside :=
  Nested.exists_startTag h.closing rfl

end BookMarkup.Token
