import BookMarkup.Attributes
import Mathlib.Data.List.Nodup

/-!
What becomes of the other attributes when one is set, removed or renamed, and when a renaming finds
no place: exactly when the renamed attribute is the last one and its new name is taken. A renamed
attribute stays in its place if no attribute before it has the new name, and else it comes one place
too far.
-/

namespace BookMarkup.Attributes

theorem lookup_put_of_ne {name key : String} (h : key ≠ name) (value : String)
    (es : List (String × String)) : (put name value es).lookup key = es.lookup key := by
  have hk : (key == name) = false := by simpa using h
  induction es with
  | nil => simp [put, List.lookup_cons, hk]
  | cons e es ih =>
      obtain ⟨k, v⟩ := e
      rw [put]
      split
      · next hn =>
        obtain rfl : k = name := hn
        simp only [List.lookup_cons, hk]
      · simp only [List.lookup_cons, ih]

theorem get?_insert_of_ne {a : Attributes} {name key : String} (h : key ≠ name) (value : String) :
    (a.insert name value).get? key = a.get? key :=
  lookup_put_of_ne h value a.entries

theorem lookup_put_self (name value : String) (es : List (String × String)) :
    (put name value es).lookup name = some value := by
  induction es with
  | nil => simp [put]
  | cons e es ih =>
      rw [put]
      split
      · simp
      · next hne =>
        have hk : (name == e.1) = false := by simpa using Ne.symm hne
        rw [List.lookup_cons, hk]
        exact ih

theorem get?_insert_self (a : Attributes) (name value : String) :
    (a.insert name value).get? name = some value :=
  lookup_put_self name value a.entries

theorem lookup_filter_of_ne {p : String → Bool} {key : String} (h : p key = true)
    (es : List (String × String)) :
    (es.filter fun e => p e.1).lookup key = es.lookup key := by
  induction es with
  | nil => rfl
  | cons e es ih =>
      obtain ⟨k, v⟩ := e
      by_cases hk : k = key
      · subst hk
        simp [h]
      · have hk : (key == k) = false := by simpa using Ne.symm hk
        by_cases hp : p k = true <;> simp [hp, List.lookup_cons, hk, ih]

theorem get?_erase_of_ne {a : Attributes} {name key : String} (h : key ≠ name) :
    (a.erase name).get? key = a.get? key :=
  lookup_filter_of_ne (p := fun k => decide (k ≠ name)) (by simpa using h) a.entries

theorem get?_rename_of_ne {a a' : Attributes} {old new key : String}
    (h : a.rename old new = .renamed a') (hold : key ≠ old) (hnew : key ≠ new) :
    a'.get? key = a.get? key := by
  rw [rename] at h
  split at h
  · simp at h
  · next value _ =>
    simp only at h
    split at h
    · simp only [Renaming.renamed.injEq] at h
      subst h
      have hp : (decide (key ≠ old) && decide (key ≠ new)) = true := by simp [hold, hnew]
      have hk : (key == new) = false := by simpa using hnew
      simp only [get?]
      rw [List.lookup_append, List.lookup_cons, hk]
      simp only
      rw [← List.lookup_append, List.take_append_drop]
      exact lookup_filter_of_ne (p := fun k => decide (k ≠ old) && decide (k ≠ new)) hp a.entries
    · simp at h

theorem get?_isSome_iff {a : Attributes} {name : String} :
    (a.get? name).isSome ↔ name ∈ a.names := by
  rw [get?, names]
  induction a.entries with
  | nil => simp
  | cons e es ih =>
      obtain ⟨k, v⟩ := e
      by_cases h : name = k
      · simp [h]
      · have hb : (name == k) = false := by simpa using h
        simp [List.lookup_cons, hb, ih, h]

theorem get?_eq_none_iff {a : Attributes} {name : String} :
    a.get? name = none ↔ name ∉ a.names := by
  rw [← get?_isSome_iff, Option.not_isSome_iff_eq_none]

theorem get?_erase_self (a : Attributes) (name : String) : (a.erase name).get? name = none := by
  rw [get?_eq_none_iff, names, List.mem_map]
  rintro ⟨e, he, rfl⟩
  simp [erase] at he

theorem get?_erase_eq_none {a : Attributes} {key : String} (h : a.get? key = none)
    (name : String) : (a.erase name).get? key = none := by
  by_cases hk : key = name
  · rw [hk, get?_erase_self]
  · rw [get?_erase_of_ne hk, h]

/-- After a renaming the old name is free, and so are the names that were, but for the new one. -/
theorem get?_rename_eq_none {a a' : Attributes} {old new key : String}
    (h : a.rename old new = .renamed a') (hnew : key ≠ new)
    (hkey : key = old ∨ a.get? key = none) : a'.get? key = none := by
  by_cases hold : key = old
  · rw [rename] at h
    split at h
    · simp at h
    · simp only at h
      split at h
      · simp only [Renaming.renamed.injEq] at h
        subst h
        rw [get?_eq_none_iff, names, List.mem_map]
        rintro ⟨e, he, hek⟩
        rw [List.mem_append, List.mem_cons] at he
        rcases he with he | rfl | he
        · have := List.mem_of_mem_take he
          simp [hek, hold] at this
        · exact hnew hek.symm
        · have := List.mem_of_mem_drop he
          simp [hek, hold] at this
      · simp at h
  · rw [get?_rename_of_ne h hold hnew, hkey.resolve_left hold]

/-- Among distinct names those other than `old` and `new` are one fewer for each of the two. -/
theorem length_others {names : List String} (hd : names.Nodup) {old : String} (new : String)
    (hold : old ∈ names) :
    (names.filter fun k => decide (k ≠ old) && decide (k ≠ new)).length + 1 +
      (if new ∈ names ∧ new ≠ old then 1 else 0) = names.length := by
  have hfilter : (names.filter fun k => decide (k ≠ old) && decide (k ≠ new)) =
      (names.erase old).erase new := by
    rw [hd.erase_eq_filter, (hd.filter _).erase_eq_filter, List.filter_filter]
    refine List.filter_congr fun k _ => ?_
    by_cases h₁ : k = old <;> by_cases h₂ : k = new <;> simp [h₁, h₂]
  have hlen := List.length_erase_of_mem hold
  have hpos := List.length_pos_of_mem hold
  rw [hfilter]
  by_cases h : new ∈ names ∧ new ≠ old
  · have hmem : new ∈ names.erase old := (List.mem_erase_of_ne h.2).2 h.1
    have := List.length_erase_of_mem hmem
    have := List.length_pos_of_mem hmem
    rw [if_pos h]
    omega
  · have hnot : new ∉ names.erase old := fun hmem =>
      h ⟨List.mem_of_mem_erase hmem, fun he => hd.not_mem_erase (he ▸ hmem)⟩
    rw [if_neg h, List.erase_of_not_mem hnot]
    omega

/-- A renaming finds no place exactly if the attribute is the last one and another one has the new
name already. -/
theorem rename_eq_misplaced_iff {a : Attributes} {old new : String} (hne : old ≠ new) :
    a.rename old new = .misplaced ↔ a.names.getLast? = some old ∧ new ∈ a.names := by
  have hd : a.names.Nodup := a.distinct
  by_cases hold : old ∈ a.names
  · obtain ⟨value, hv⟩ := Option.isSome_iff_exists.1 (get?_isSome_iff.2 hold)
    have hlen : (a.entries.filter fun e => decide (e.1 ≠ old) && decide (e.1 ≠ new)).length =
        (a.names.filter fun k => decide (k ≠ old) && decide (k ≠ new)).length := by
      rw [names, List.filter_map, List.length_map]
      rfl
    have hcount := length_others hd new hold
    have hlt := List.idxOf_lt_length_iff.2 hold
    have hlast : a.names.getLast? = some old ↔ a.names.idxOf old + 1 = a.names.length := by
      rw [List.getLast?_eq_getElem?]
      constructor
      · intro h
        obtain ⟨hi, he⟩ := List.getElem?_eq_some_iff.1 h
        have := hd.idxOf_getElem _ hi
        rw [he] at this
        omega
      · intro h
        rw [← h, Nat.add_sub_cancel, List.getElem?_eq_getElem hlt, List.getElem_idxOf]
    -- The place of the old name is counted among the names other than these two.
    rw [rename, hv, hlast]
    simp only [hlen]
    split
    · next hle =>
      simp only [reduceCtorEq, false_iff, not_and]
      intro hl hnew
      rw [if_pos ⟨hnew, Ne.symm hne⟩] at hcount
      omega
    · next hle =>
      simp only [true_iff]
      by_cases hnew : new ∈ a.names ∧ new ≠ old
      · rw [if_pos hnew] at hcount
        exact ⟨by omega, hnew.1⟩
      · rw [if_neg hnew] at hcount
        omega
  · have hnone : a.get? old = none := by
      cases hv : a.get? old with
      | none => rfl
      | some v => exact absurd (get?_isSome_iff.1 (by simp [hv])) hold
    rw [rename, hnone]
    simp only [reduceCtorEq, false_iff, not_and]
    intro hl
    exact absurd (List.mem_of_getLast? hl) hold

/-! ### Whole maps -/

theorem ext_entries {a b : Attributes} (h : a.entries = b.entries) : a = b := by
  cases a
  cases b
  simpa using h

def without (a : Attributes) (names : List String) : Attributes where
  entries := a.entries.filter (·.1 ∉ names)
  distinct := nodup_filter _ a.distinct

@[simp] theorem without_nil (a : Attributes) : a.without [] = a :=
  ext_entries (by simp [without])

theorem erase_eq_without (a : Attributes) (name : String) : a.erase name = a.without [name] :=
  ext_entries (by simp [erase, without])

@[simp] theorem without_without (a : Attributes) (names later : List String) :
    (a.without names).without later = a.without (names ++ later) := by
  refine ext_entries ?_
  simp only [without, List.filter_filter]
  exact List.filter_congr fun e _ => by simp [not_or, Bool.and_comm]

theorem without_congr (a : Attributes) {names names' : List String}
    (h : ∀ name, name ∈ names ↔ name ∈ names') : a.without names = a.without names' :=
  ext_entries (List.filter_congr fun e _ => by simp only [h])

theorem get?_without_of_notMem {a : Attributes} {names : List String} {key : String}
    (h : key ∉ names) : (a.without names).get? key = a.get? key :=
  lookup_filter_of_ne (p := fun k => decide (k ∉ names)) (by simpa using h) a.entries

theorem get?_without_of_mem (a : Attributes) {names : List String} {key : String}
    (h : key ∈ names) : (a.without names).get? key = none := by
  rw [get?_eq_none_iff, Attributes.names, List.mem_map]
  rintro ⟨e, he, rfl⟩
  simp [without, h] at he

theorem insert_insert (a : Attributes) (name value : String) :
    (a.insert name value).insert name value = a.insert name value := by
  have hput (es : List (String × String)) :
      put name value (put name value es) = put name value es := by
    induction es with
    | nil => simp [put]
    | cons e es ih =>
        by_cases h : e.1 = name
        · simp [put, h]
        · simp [put, h, ih]
  exact ext_entries (hput a.entries)

def renamedTo (a : Attributes) (old new : String) : Attributes :=
  match a.rename old new with
  | .renamed a' => a'
  | _ => a

theorem rename_eq_absent_iff {a : Attributes} {old new : String} :
    a.rename old new = .absent ↔ a.get? old = none := by
  rw [rename]
  split
  · next h => simp [h]
  · next h =>
    simp only [h]
    split <;> simp

theorem get?_renamedTo_of_ne (a : Attributes) {old new key : String} (hold : key ≠ old)
    (hnew : key ≠ new) : (a.renamedTo old new).get? key = a.get? key := by
  rw [renamedTo]
  split
  · next h => exact get?_rename_of_ne h hold hnew
  · rfl

theorem get?_renamedTo_eq_none {a : Attributes} {old new key : String} (hnew : key ≠ new)
    (h : a.get? key = none) : (a.renamedTo old new).get? key = none := by
  rw [renamedTo]
  split
  · next hre => exact get?_rename_eq_none hre hnew (.inr h)
  · exact h

theorem get?_renamedTo_old {a : Attributes} {old new : String} (hne : old ≠ new)
    (h : a.rename old new ≠ .misplaced) : (a.renamedTo old new).get? old = none := by
  rw [renamedTo]
  split
  · next hre => exact get?_rename_eq_none hre hne (.inl rfl)
  · next hre =>
    cases hr : a.rename old new with
    | absent => exact rename_eq_absent_iff.1 hr
    | renamed a' => exact absurd hr (hre a')
    | misplaced => exact absurd hr h

theorem ne_of_entries {a : Attributes} {name value : String}
    {before after : List (String × String)} (he : a.entries = before ++ (name, value) :: after) :
    (∀ e ∈ before, e.1 ≠ name) ∧ ∀ e ∈ after, e.1 ≠ name := by
  have hd := a.distinct
  rw [he, List.map_append, List.map_cons, List.nodup_append, List.nodup_cons] at hd
  refine ⟨fun e hm heq => ?_, fun e hm heq => ?_⟩
  · exact hd.2.2 e.1 (List.mem_map_of_mem hm) name List.mem_cons_self heq
  · exact hd.2.1.1 (List.mem_map.2 ⟨e, hm, heq⟩)

theorem exists_entries_eq {a : Attributes} {name value : String} (h : a.get? name = some value) :
    ∃ before after, a.entries = before ++ (name, value) :: after := by
  obtain ⟨before, after, he, _⟩ := List.lookup_eq_some_iff.1 h
  exact ⟨before, after, he⟩

theorem get?_of_entries {a : Attributes} {name value : String}
    {before after : List (String × String)} (he : a.entries = before ++ (name, value) :: after) :
    a.get? name = some value := by
  have hnone : before.lookup name = none :=
    List.lookup_eq_none_iff.2 fun e hm => by simpa using Ne.symm ((ne_of_entries he).1 e hm)
  rw [get?, he, List.lookup_append, hnone]
  simp

theorem idxOf_of_entries {a : Attributes} {name value : String}
    {before after : List (String × String)} (he : a.entries = before ++ (name, value) :: after) :
    a.names.idxOf name = before.length := by
  have hnot : name ∉ before.map Prod.fst := by
    intro hm
    obtain ⟨e, hm, heq⟩ := List.mem_map.1 hm
    exact (ne_of_entries he).1 e hm heq
  rw [names, he, List.map_append, List.idxOf_append_of_notMem hnot]
  simp

/-! ### Where a renamed attribute comes to stand -/

section Rename

variable {a : Attributes} {old value : String} {before after : List (String × String)}
  (he : a.entries = before ++ (old, value) :: after)

include he

/-- The renamed attribute comes to the index that it had, among the others. Another one with the new
name is not counted among them any more. -/
theorem rename_of_entries (new : String) {others : List (String × String)}
    (ho : others = before.filter (·.1 ≠ new) ++ after.filter (·.1 ≠ new)) :
    (before.length ≤ others.length → ∃ a', a.rename old new = .renamed a' ∧
      a'.entries = others.take before.length ++ (new, value) :: others.drop before.length) ∧
    (others.length < before.length → a.rename old new = .misplaced) := by
  obtain ⟨hbefore, hafter⟩ := ne_of_entries he
  have hothers : (a.entries.filter fun e => decide (e.1 ≠ old) && decide (e.1 ≠ new)) = others := by
    rw [he, ho, List.filter_append, List.filter_cons_of_neg (by simp)]
    congr 1
    · exact List.filter_congr fun e hm => by simp [hbefore e hm]
    · exact List.filter_congr fun e hm => by simp [hafter e hm]
  rw [rename, get?_of_entries he]
  simp only [hothers, idxOf_of_entries he]
  constructor
  · intro hle
    rw [if_pos hle]
    exact ⟨_, rfl, rfl⟩
  · intro hlt
    rw [if_neg (Nat.not_le.2 hlt)]

/-- Unless the new name stands before it, the renamed attribute takes the place of the old one. -/
theorem rename_of_notMem {new : String} (hnew : new ∉ before.map Prod.fst) :
    ∃ a', a.rename old new = .renamed a' ∧
      a'.entries = before ++ (new, value) :: after.filter (·.1 ≠ new) := by
  have hkept : before.filter (·.1 ≠ new) = before :=
    List.filter_eq_self.2 fun e hm => by
      simpa using fun heq : e.1 = new => hnew (List.mem_map.2 ⟨e, hm, heq⟩)
  obtain ⟨hplace, _⟩ := rename_of_entries he new rfl
  rw [hkept, List.length_append, List.take_left, List.drop_left] at hplace
  exact hplace (Nat.le_add_right _ _)

/-- If the new name stands before it, the renamed attribute comes one place too far, where there is
such a place. -/
theorem rename_of_mem {new : String} (hnew : new ∈ before.map Prod.fst) :
    (after = [] → a.rename old new = .misplaced) ∧
    ∀ next rest, after = next :: rest → ∃ a', a.rename old new = .renamed a' ∧
      a'.entries = before.filter (·.1 ≠ new) ++ next :: (new, value) :: rest := by
  obtain ⟨⟨name, taken⟩, hm, hname⟩ := List.mem_map.1 hnew
  obtain rfl : name = new := hname
  obtain ⟨front, back, rfl⟩ := List.append_of_mem hm
  -- All others have names of their own, so that one attribute is missing before the renamed one.
  have hfirst : a.entries = front ++ (name, taken) :: (back ++ (old, value) :: after) := by
    rw [he, List.append_assoc, List.cons_append]
  obtain ⟨hfront, hrest⟩ := ne_of_entries hfirst
  have hkept {es : List (String × String)} (hes : ∀ e ∈ es, e.1 ≠ name) :
      es.filter (·.1 ≠ name) = es :=
    List.filter_eq_self.2 fun e hm => by simpa using hes e hm
  have hbefore : (front ++ (name, taken) :: back).filter (·.1 ≠ name) = front ++ back := by
    rw [List.filter_append, List.filter_cons_of_neg (by simp), hkept hfront,
      hkept fun e hm => hrest e (List.mem_append_left _ hm)]
  have hafter : after.filter (·.1 ≠ name) = after :=
    hkept fun e hm => hrest e (List.mem_append_right _ (List.mem_cons_of_mem _ hm))
  obtain ⟨hplace, hmisplaced⟩ := rename_of_entries he name (by rw [hbefore])
  have hlength : (front ++ (name, taken) :: back).length = (front ++ back).length + 1 := by
    simp only [List.length_append, List.length_cons, Nat.add_assoc]
  rw [hlength] at hplace hmisplaced
  constructor
  · rintro rfl
    exact hmisplaced (by simp)
  · rintro next rest rfl
    rw [hafter, List.take_length_add_append, List.drop_length_add_append, List.take_succ_cons,
      List.take_zero, List.drop_succ_cons, List.drop_zero] at hplace
    obtain ⟨a', ha', hentries⟩ := hplace (by simp only [List.length_append, List.length_cons]; omega)
    exact ⟨a', ha', by rw [hentries, hbefore, List.append_assoc, List.cons_append, List.nil_append]⟩

end Rename

/-- The attributes with `old` renamed where it stands. Another one with the new name goes. -/
def inPlace (a : Attributes) (old new : String) : List (String × String) :=
  if old ∈ a.names then
    (a.entries.filter fun e => e.1 = old ∨ e.1 ≠ new).map fun e => if e.1 = old then (new, e.2) else e
  else a.entries

/-- Where no attribute before it has the new name, the renamed one stays in its place. -/
theorem entries_renamedTo {a : Attributes} {old new : String}
    (hle : old ∈ a.names → a.names.idxOf old ≤ a.names.idxOf new) :
    (a.renamedTo old new).entries = a.inPlace old new := by
  rw [inPlace]
  split
  · next hold =>
    have hle := hle hold
    obtain ⟨value, hv⟩ := Option.isSome_iff_exists.1 (get?_isSome_iff.2 hold)
    obtain ⟨before, after, he⟩ := exists_entries_eq hv
    obtain ⟨hbefore, hafter⟩ := ne_of_entries he
    have hnew : new ∉ before.map Prod.fst := by
      intro hmem
      have hlt := List.idxOf_lt_length_iff.2 hmem
      rw [idxOf_of_entries he, names, he, List.map_append, List.idxOf_append_of_mem hmem] at hle
      rw [List.length_map] at hlt
      omega
    obtain ⟨a', ha', hentries⟩ := rename_of_notMem he hnew
    rw [renamedTo, ha', hentries, he, List.filter_append, List.filter_cons_of_pos (by simp),
      List.map_append, List.map_cons, if_pos rfl]
    have hfirst : (before.filter fun e => e.1 = old ∨ e.1 ≠ new) = before :=
      List.filter_eq_self.2 fun e hm => by
        simpa using .inr fun heq : e.1 = new => hnew (List.mem_map.2 ⟨e, hm, heq⟩)
    have hlast : (after.filter fun e => e.1 = old ∨ e.1 ≠ new) = after.filter (·.1 ≠ new) :=
      List.filter_congr fun e hm => by simp [hafter e hm]
    have hsame {es : List (String × String)} (hes : ∀ e ∈ es, e.1 ≠ old) :
        (es.map fun e => if e.1 = old then (new, e.2) else e) = es :=
      List.map_congr_left (fun e hm => if_neg (hes e hm)) |>.trans (List.map_id' es)
    rw [hfirst, hlast, hsame hbefore, hsame fun e hm => hafter e (List.mem_of_mem_filter hm)]
  · next hold =>
    have habsent : a.rename old new = .absent :=
      rename_eq_absent_iff.2 (get?_eq_none_iff.2 hold)
    rw [renamedTo, habsent]

end BookMarkup.Attributes
