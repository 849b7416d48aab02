/-!
The attributes of an element, in the order in which they came. Names are distinct: setting a name
again keeps its place, and renaming puts the new name where the old one stood.
-/

namespace BookMarkup

structure Attributes where
  entries : List (String × String)
  distinct : (entries.map Prod.fst).Nodup
  deriving DecidableEq, Repr

namespace Attributes

def empty : Attributes := ⟨[], by simp⟩

instance : Inhabited Attributes := ⟨empty⟩

def names (a : Attributes) : List String :=
  a.entries.map Prod.fst

def get? (a : Attributes) (name : String) : Option String :=
  a.entries.lookup name

def contains (a : Attributes) (name : String) : Bool :=
  a.names.contains name

/-- Gives `name` the value at the place where it stands, or else at the end. -/
def put (name value : String) : List (String × String) → List (String × String)
  | [] => [(name, value)]
  | e :: rest => if e.1 = name then (name, value) :: rest else e :: put name value rest

theorem map_fst_put (name value : String) (es : List (String × String)) :
    (put name value es).map Prod.fst =
      if name ∈ es.map Prod.fst then es.map Prod.fst else es.map Prod.fst ++ [name] := by
  induction es with
  | nil => simp [put]
  | cons e rest ih =>
    by_cases h : e.1 = name
    · simp [put, h]
    · rw [put, if_neg h, List.map_cons, ih, List.map_cons]
      have hm : name ∈ e.1 :: rest.map Prod.fst ↔ name ∈ rest.map Prod.fst := by
        simp [Ne.symm h]
      by_cases hr : name ∈ rest.map Prod.fst
      · simp only [hm, hr, if_true]
      · simp only [hm, hr, if_false]
        rfl

def insert (a : Attributes) (name value : String) : Attributes where
  entries := put name value a.entries
  distinct := by
    rw [map_fst_put]
    have hd := a.distinct
    split
    · exact hd
    · next h =>
      rw [List.nodup_append]
      refine ⟨hd, by simp, fun x hx y hy => ?_⟩
      rintro rfl
      exact h (List.mem_singleton.1 hy ▸ hx)

theorem nodup_filter {es : List (String × String)} (p : String × String → Bool)
    (h : (es.map Prod.fst).Nodup) : ((es.filter p).map Prod.fst).Nodup :=
  (List.filter_sublist.map Prod.fst).nodup h

/-- The attributes without `name`; the later ones move up. -/
def erase (a : Attributes) (name : String) : Attributes where
  entries := a.entries.filter (·.1 ≠ name)
  distinct := nodup_filter _ a.distinct

/-- What becomes of renaming an attribute. -/
inductive Renaming
  | absent
  | renamed (attributes : Attributes)
  | misplaced

theorem nodup_insert_at {es : List (String × String)} {name : String} (value : String) (i : Nat)
    (hd : (es.map Prod.fst).Nodup) (hn : name ∉ es.map Prod.fst) :
    ((es.take i ++ (name, value) :: es.drop i).map Prod.fst).Nodup := by
  have hp : ((es.take i ++ (name, value) :: es.drop i).map Prod.fst).Perm
      (name :: es.map Prod.fst) := by
    have h : (es.take i ++ (name, value) :: es.drop i).Perm
        ((name, value) :: (es.take i ++ es.drop i)) := List.perm_middle
    simpa using h.map Prod.fst
  exact hp.nodup_iff.2 (List.nodup_cons.2 ⟨hn, hd⟩)

/-- Puts `new`, with the value of `old`, at the index of `old` among the attributes with neither
name. The attributes can be too few for that index: `old` is then the last of them, and one of those
before it already has the name `new`. -/
def rename (a : Attributes) (old new : String) : Renaming :=
  match a.get? old with
  | none => .absent
  | some value =>
    let index := a.names.idxOf old
    let others := a.entries.filter fun e => decide (e.1 ≠ old) && decide (e.1 ≠ new)
    if index ≤ others.length then
      .renamed
        { entries := others.take index ++ (new, value) :: others.drop index
          distinct := nodup_insert_at value index (nodup_filter _ a.distinct) (by
            intro h
            obtain ⟨e, he, rfl⟩ := List.mem_map.1 h
            simp [others] at he) }
    else .misplaced

end Attributes

end BookMarkup
