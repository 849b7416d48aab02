import BookMarkup.Text.Escape

/-!
References in character data and in attribute values. They have the same names in both, but not the
same numbers: some are written in a loose way that only character data allows. All others stand for
the same character in both, or for none in both.
-/

namespace BookMarkup.Text

namespace Reference

/-- The reference gives a code point in a way that only character data allows: after a capital `X`,
with a plus sign, or as zero. -/
def isLoose (name : List Char) : Bool :=
  match name with
  | '#' :: 'X' :: _ => true
  | '#' :: 'x' :: '+' :: _ => true
  | '#' :: '+' :: _ => true
  | name => inData name == some '\x00'

/-! ### Numbers -/

theorem read_minus {radix : Nat} (hr : radix = 10 ∨ radix = 16) (digits : List Char) :
    Numeral.read radix ('-' :: digits) = .error .badDigit := by
  rcases hr with rfl | rfl
  · rfl
  · rfl

theorem read_ten_capital (digits : List Char) :
    Numeral.read 10 ('X' :: digits) = .error .badDigit := rfl

theorem atCodePoint_eq_zero_iff {n : Nat} : atCodePoint n = some '\x00' ↔ n = 0 := by
  rw [atCodePoint]
  constructor
  · intro h
    split at h
    · next hv =>
      have hn := congrArg Char.toNat (Option.some.inj h)
      rw [Char.ofNat, dif_pos hv] at hn
      exact hn
    · simp at h
  · rintro rfl
    rfl

def unsigned (radix : Nat) (digits : List Char) : Except Flaw Char :=
  match digits with
  | '+' :: _ => .error .signed
  | '-' :: _ => .error .signed
  | digits =>
    match Numeral.read radix digits with
    | .error flaw => .error (.numeral flaw)
    | .ok 0 => .error .zero
    | .ok number =>
      match atCodePoint number with
      | some c => .ok c
      | none => .error (.notACharacter number)

/-- Without a plus sign, a number is read as in character data, unless it is zero. -/
theorem toOption_unsigned {radix : Nat} {digits : List Char} (hr : radix = 10 ∨ radix = 16)
    (hp : digits.head? ≠ some '+') :
    (unsigned radix digits).toOption =
      if (Numeral.read radix digits).toOption.bind atCodePoint = some '\x00' then none
      else (Numeral.read radix digits).toOption.bind atCodePoint := by
  rw [unsigned.eq_def]
  split
  · simp at hp
  · simp [read_minus hr, Except.toOption]
  · cases Numeral.read radix digits with
    | error flaw => simp [Except.toOption]
    | ok number =>
        cases number with
        | zero => simp [Except.toOption, atCodePoint_eq_zero_iff.2]
        | succ number =>
            have hne : atCodePoint (number + 1) ≠ some '\x00' := by
              rw [Ne, atCodePoint_eq_zero_iff]
              exact Nat.succ_ne_zero number
            cases hc : atCodePoint (number + 1) <;> simp_all [Except.toOption]

/-- A number is read in an attribute value as in character data, unless it is loose. -/
theorem toOption_numberInValue (code : List Char) :
    (numberInValue code).toOption =
      if isLoose ('#' :: code) then none else inData ('#' :: code) := by
  by_cases hx : ∃ digits, code = 'x' :: digits
  · obtain ⟨digits, rfl⟩ := hx
    have hv : numberInValue ('x' :: digits) = unsigned 16 digits := rfl
    have hd : inData ('#' :: 'x' :: digits) =
        (Numeral.read 16 digits).toOption.bind atCodePoint := rfl
    by_cases hp : digits.head? = some '+'
    · obtain ⟨digits, rfl⟩ := List.head?_eq_some_iff.1 hp
      rfl
    · have hl : isLoose ('#' :: 'x' :: digits) = (inData ('#' :: 'x' :: digits) == some '\x00') := by
        rw [isLoose.eq_def]
        split <;> simp_all
      rw [hv, hl, hd, toOption_unsigned (.inr rfl) hp]
      simp only [beq_iff_eq]
  · by_cases hX : ∃ digits, code = 'X' :: digits
    · obtain ⟨digits, rfl⟩ := hX
      have hv : numberInValue ('X' :: digits) = unsigned 10 ('X' :: digits) := rfl
      rw [hv, toOption_unsigned (.inl rfl) (by simp), read_ten_capital]
      rfl
    · have hv : numberInValue code = unsigned 10 code := by
        rw [numberInValue.eq_def]
        split
        next radix digits hradix =>
        split at hradix
        · next digits => exact absurd ⟨digits, rfl⟩ hx
        · obtain ⟨rfl, rfl⟩ := Prod.mk.inj hradix
          rfl
      have hd : inData ('#' :: code) = (Numeral.read 10 code).toOption.bind atCodePoint := by
        rw [inData.eq_def]
        simp only
        split <;> simp_all
      by_cases hp : code.head? = some '+'
      · obtain ⟨digits, rfl⟩ := List.head?_eq_some_iff.1 hp
        rw [hv]
        rfl
      · have hl : isLoose ('#' :: code) = (inData ('#' :: code) == some '\x00') := by
          rw [isLoose.eq_def]
          split <;> simp_all
        rw [hv, hl, hd, toOption_unsigned (.inl rfl) hp]
        simp only [beq_iff_eq]

/-- In an attribute value a reference stands for what it stands for in character data, unless it is
loose. -/
theorem toOption_resolveInValue (start : Nat) (name : List Char) :
    (resolveInValue start name).toOption = if isLoose name then none else inData name := by
  rw [resolveInValue.eq_def]
  split
  · next code =>
    rw [← toOption_numberInValue]
    cases numberInValue code <;> rfl
  · next hnot =>
    have hd : inData name = named name := by
      rw [inData.eq_def]
      split <;> simp_all
    have hl : isLoose name = false := by
      rw [isLoose.eq_def]
      split
      · simp_all
      · simp_all
      · simp_all
      · rw [hd, named]
        split <;> decide
    rw [hl, hd]
    cases named name <;> rfl

end Reference

theorem toOption_unescape_reference {name : String}
    (hn : ∀ c ∈ name.toList, c ≠ ';' ∧ c ≠ '&') :
    (unescape ("&" ++ name ++ ";")).toOption =
      if Reference.isLoose name.toList then none
      else (Reference.inData name.toList).map String.singleton := by
  have htext : ("&" ++ name ++ ";").toList = '&' :: (name.toList ++ [';']) := by simp
  obtain ⟨place', h⟩ :=
    unescapeFrom_reference (byteLength ('&' :: (name.toList ++ [';']))) 0 [] [] [] hn 1
  rw [List.reverse_nil, List.nil_append] at h
  have hread : (unescape ("&" ++ name ++ ";")).toOption =
      (resolveInValue 0 name.toList).toOption.map String.singleton := by
    rw [unescape, htext, unescapeFrom]
    simp only [if_true, Nat.zero_add, h]
    cases resolveInValue 0 name.toList with
    | error flaw => rfl
    | ok c => rfl
  rw [hread, Reference.toOption_resolveInValue]
  split <;> rfl

end BookMarkup.Text
