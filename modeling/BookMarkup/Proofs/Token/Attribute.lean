import BookMarkup.Proofs.Token.Tag
import Mathlib.Data.List.Nodup

/-!
Written attributes as they are read: one after the other, with the names and the escaped values that
were written, and without a flaw.
-/

namespace BookMarkup

namespace Tag.Attribute

open Token Text

def written (a : Attribute) : String × String :=
  (a.key, a.value)

theorem next?_writtenAttribute (size : Nat) (first? : String → Option Nat) {name : String}
    (hn : IsQName name) (hf : first? name = none) (value : String) (rest : List Char) :
    ∃ start, next? size first? (Layout.writtenAttribute name value ++ rest) =
      .ok (some (⟨start, name, String.ofList (escapeValue value)⟩, rest)) := by
  obtain ⟨c, cs, hc⟩ := hn.exists_cons
  have hmem {x : Char} (hx : x ∈ c :: cs) : x ∈ name.toList := hc ▸ hx
  have hkey : ∀ x ∈ cs, inKey x := by
    intro x hx
    have hx := hmem (List.mem_cons_of_mem c hx)
    simp [inKey, hn.not_blank hx, hn.ne hx (show '=' ∈ _ by simp)]
  have hblank : isMarkupBlank c = false := hn.not_blank (hmem List.mem_cons_self)
  let after := '"' :: (escapeValue value ++ '"' :: rest)
  have hstop : ∀ x ∈ ('=' :: after).head?, inKey x = false := by
    intro x hx
    obtain rfl : '=' = x := by simpa using hx
    decide
  have htext : (Layout.writtenAttribute name value ++ rest).dropWhile isMarkupBlank =
      c :: (cs ++ '=' :: after) := by
    have hsplit : Layout.writtenAttribute name value ++ rest =
        ' ' :: c :: (cs ++ '=' :: after) := by
      simp [Layout.writtenAttribute, hc, after]
    rw [hsplit, List.dropWhile_cons_of_pos (by decide),
      List.dropWhile_cons_of_neg (by simp [hblank])]
  have hequals : afterEquals size ('=' :: after) = .ok after := by
    simp [afterEquals, show isMarkupBlank '=' = false by decide]
  have hquote : ∀ x ∈ escapeValue value, (x != '"') = true := fun x hx => by
    simpa using (ne_of_mem_escapeValue hx).1
  have hvalue : quotedValue size after = .ok (escapeValue value, rest) := by
    have hend : ∀ x ∈ ('"' :: rest).head?, (x != '"') = false := by simp
    simp only [quotedValue, after, List.dropWhile_cons_of_neg
      (show ¬ isMarkupBlank '"' = true by decide), true_or, if_true]
    rw [dropWhile_append_stop hquote hend, takeWhile_append_stop hquote hend]
  rw [next?, htext]
  simp only [takeWhile_append_stop hkey hstop, dropWhile_append_stop hkey hstop, hequals,
    ← hc, String.ofList_toList]
  refine ⟨size - byteLength (c :: (cs ++ '=' :: after)), ?_⟩
  simp only [hf, hvalue, bind, Except.bind]
  rfl

/-- Written attributes with distinct names are read one after the other. -/
theorem readFrom_writtenAttributes (size : Nat) (strict : Bool)
    {attributes : List (String × String)} (hn : ∀ a ∈ attributes, IsQName a.1)
    (hd : (attributes.map Prod.fst).Nodup) {earlier : List Attribute}
    (he : ∀ a ∈ attributes, ∀ e ∈ earlier, e.key ≠ a.1) {count : Nat}
    (hc : attributes.length < count) :
    (readFrom size strict count earlier (writtenAttributes attributes)).flaw = none ∧
      (readFrom size strict count earlier (writtenAttributes attributes)).items.map written =
        earlier.reverse.map written ++
          attributes.map fun (name, value) => (name, String.ofList (escapeValue value)) := by
  induction attributes generalizing earlier count with
  | nil =>
      obtain ⟨count, rfl⟩ := Nat.exists_eq_add_of_lt hc
      simp [readFrom, writtenAttributes, next?]
  | cons a attributes ih =>
      obtain ⟨name, value⟩ := a
      cases count with
      | zero => simp at hc
      | succ count =>
          obtain ⟨hnew, hd⟩ := List.nodup_cons.1 hd
          have hfirst : (if strict = true then (earlier.find? (·.key == name)).map start
              else none) = none := by
            split
            · rw [Option.map_eq_none_iff, List.find?_eq_none]
              intro e hm
              simpa using he _ List.mem_cons_self e hm
            · rfl
          obtain ⟨place, hnext⟩ := next?_writtenAttribute size
            (fun key => if strict = true then (earlier.find? (·.key == key)).map start else none)
            (hn _ List.mem_cons_self) hfirst value (writtenAttributes attributes)
          have hcons : writtenAttributes ((name, value) :: attributes) =
              Layout.writtenAttribute name value ++ writtenAttributes attributes := rfl
          have hearlier : ∀ b ∈ attributes, ∀ e ∈
              (⟨place, name, String.ofList (escapeValue value)⟩ : Attribute) :: earlier,
              e.key ≠ b.1 := by
            intro b hb e hm
            rcases List.mem_cons.1 hm with rfl | hm
            · rintro rfl
              exact hnew (List.mem_map.2 ⟨b, hb, rfl⟩)
            · exact he b (List.mem_cons_of_mem _ hb) e hm
          obtain ⟨hflaw, hitems⟩ := ih (fun b hb => hn b (List.mem_cons_of_mem _ hb)) hd hearlier
            (Nat.lt_of_succ_lt_succ hc)
          rw [hcons, readFrom]
          simp only [hnext]
          refine ⟨hflaw, hitems.trans ?_⟩
          simp [written]

theorem length_le_writtenAttributes (attributes : List (String × String)) :
    attributes.length ≤ (writtenAttributes attributes).length := by
  induction attributes with
  | nil => exact Nat.le_refl _
  | cons a attributes ih =>
      have hcons : writtenAttributes (a :: attributes) =
          Layout.writtenAttribute a.1 a.2 ++ writtenAttributes attributes := rfl
      rw [hcons, List.length_append, Layout.writtenAttribute]
      simp only [List.length_cons, List.length_append]
      omega

end Tag.Attribute

namespace Tag

open Token Text

section Written

variable (name : String) {attributes : List (String × String)}
  (hn : ∀ a ∈ attributes, IsQName a.1) (hd : (attributes.map Prod.fst).Nodup)

include hn hd

theorem attributes_written (strict : Bool) :
    ((Tag.mk name (writtenAttributes attributes)).attributes strict).flaw = none ∧
      ((Tag.mk name (writtenAttributes attributes)).attributes strict).items.map
          Attribute.written =
        attributes.map fun (name, value) => (name, String.ofList (escapeValue value)) := by
  have hc : attributes.length < (writtenAttributes attributes).length + 1 :=
    Nat.lt_succ_of_le (Attribute.length_le_writtenAttributes attributes)
  have hearlier : ∀ a ∈ attributes, ∀ e ∈ ([] : List Attribute), e.key ≠ a.1 := by simp
  rw [Tag.attributes]
  simpa using Attribute.readFrom_writtenAttributes _ strict hn hd hearlier hc

theorem lookup_written {key : String} (hk : key ∉ attributes.map Prod.fst) :
    (Tag.mk name (writtenAttributes attributes)).lookup key = .ok none := by
  obtain ⟨hflaw, hitems⟩ := attributes_written name hn hd false
  have hfind : ((Tag.mk name (writtenAttributes attributes)).attributes false).items.find?
      (·.key == key) = none := by
    rw [List.find?_eq_none]
    intro a ha
    have hm := List.mem_map_of_mem (f := Attribute.written) ha
    rw [hitems] at hm
    obtain ⟨b, hb, he⟩ := List.mem_map.1 hm
    have hkey : b.1 = a.key := congrArg Prod.fst he
    simp only [beq_iff_eq]
    rintro rfl
    exact hk (hkey ▸ List.mem_map_of_mem hb)
  rw [lookup, Readout.find?, hfind, hflaw]
  rfl

theorem lookup_written_of_mem {key value : String} (hm : (key, value) ∈ attributes) :
    (Tag.mk name (writtenAttributes attributes)).lookup key =
      .ok (some (String.ofList (escapeValue value))) := by
  obtain ⟨_, hitems⟩ := attributes_written name hn hd false
  have hwritten : (key, String.ofList (escapeValue value)) ∈
      ((Tag.mk name (writtenAttributes attributes)).attributes false).items.map
        Attribute.written :=
    hitems ▸ List.mem_map_of_mem (f := fun a => (a.1, String.ofList (escapeValue a.2))) hm
  obtain ⟨a, ha, hka⟩ := List.mem_map.1 hwritten
  cases hfind : ((Tag.mk name (writtenAttributes attributes)).attributes false).items.find?
      (·.key == key) with
  | none =>
      have hno := List.find?_eq_none.1 hfind a ha
      have hkey : a.key = key := congrArg Prod.fst hka
      simp [hkey] at hno
  | some b =>
      have hb := List.mem_map_of_mem (f := Attribute.written) (List.mem_of_find?_eq_some hfind)
      have hkey : b.key = key := by simpa using List.find?_some hfind
      rw [hitems] at hb
      obtain ⟨c, hc, hcb⟩ := List.mem_map.1 hb
      -- Names are distinct, so that what is found is what was written.
      have hck : c.1 = key := (congrArg Prod.fst hcb).trans hkey
      have hone : c = (key, value) := List.inj_on_of_nodup_map hd hc hm hck
      have hvalue : b.value = String.ofList (escapeValue value) := by
        rw [hone] at hcb
        exact (congrArg Prod.snd hcb).symm
      rw [lookup, Readout.find?, hfind, ← hvalue]
      rfl

end Written

end Tag

end BookMarkup
