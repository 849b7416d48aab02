import BookMarkup.Proofs.Tree.Ancestry

/-!
Where the space of a tree is preserved, and which elements are laid out over lines. The attribute
`xml:space` of an element speaks for all that lies within it, up to an element that tells otherwise;
character data keeps its element on one line, with all that lies within it. The two do not ask for
each other: an element may be spread over lines though its space is preserved.
-/

namespace BookMarkup

/-- What `xml:space` tells: that space is preserved, that it is not, or nothing. -/
def Node.space? (n : Node) : Option Bool :=
  match n.attributes.get? "xml:space" with
  | some "preserve" => some true
  | some "default" => some false
  | _ => none

namespace Tree

def space? (t : Tree) (i : NodeId) : Option Bool :=
  (t.get? i).bind Node.space?

/-- The space in a node is preserved: it tells so itself, or it tells nothing and the space around it
is preserved. -/
inductive Preserved (t : Tree) : NodeId → Prop
  | own {i : NodeId} (h : t.space? i = some true) : Preserved t i
  | around {i p : NodeId} (h : t.space? i = none) (hp : t.parentOf i = some p)
      (hs : Preserved t p) : Preserved t i

def mixes (t : Tree) (ids : List NodeId) : Bool :=
  ids.any fun id => ((t.get? id).map Node.isCharacterData).getD false

def Spread (t : Tree) (i : NodeId) : Prop :=
  ∀ a, Within t i a → t.mixes (t.childrenOf a) = false

/-- The children get lines of their own, though the space between them is preserved. -/
structure Padded (t : Tree) (i : NodeId) : Prop where
  preserved : t.Preserved i
  spread : t.Spread i
  nonempty : t.childrenOf i ≠ []

section Step

variable {t : Tree} {i : NodeId}

theorem space?_of_get? {n : Node} (hn : t.get? i = some n) : t.space? i = n.space? := by
  rw [space?, hn, Option.bind_some]

theorem preserved_iff : t.Preserved i ↔
    t.space? i = some true ∨ t.space? i = none ∧ ∃ p, t.parentOf i = some p ∧ t.Preserved p := by
  constructor
  · rintro (h | ⟨h, hp, hs⟩)
    · exact .inl h
    · exact .inr ⟨h, _, hp, hs⟩
  · rintro (h | ⟨h, p, hp, hs⟩)
    · exact .own h
    · exact .around h hp hs

theorem spread_iff : t.Spread i ↔
    t.mixes (t.childrenOf i) = false ∧ ∀ p, t.parentOf i = some p → t.Spread p := by
  constructor
  · exact fun h => ⟨h i (.refl i), fun p hp a ha => h a (.step hp ha)⟩
  · rintro ⟨hi, hp⟩ a ha
    cases ha with
    | refl => exact hi
    | step hs ha => exact hp _ hs a ha

end Step

end Tree

end BookMarkup
