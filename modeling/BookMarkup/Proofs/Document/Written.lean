import BookMarkup.Proofs.Document.RoundTrip

/-!
The written form of a node in a forest, told by what is written for its children. As many levels as
there are nodes are always enough, so that they need not be counted.
-/

namespace BookMarkup

namespace Layout

open BookMarkup.Tree

section Forest

variable (l : Layout) {t : Tree} (hf : Forest t)

include hf

/-- Any number of levels is enough that is greater than the height of the node. -/
theorem writtenNode_levels {id : NodeId} {h levels levels' : Nat} (hh : HeightAtMost t id h)
    (hl : h < levels) (hl' : h < levels') (depth : Nat) (spread : Bool) (xmlns : Option String) :
    l.writtenNode t levels depth spread xmlns id =
      l.writtenNode t levels' depth spread xmlns id := by
  induction id using hf.induction_children generalizing h levels levels' depth spread xmlns with
  | step id ih =>
      obtain ⟨levels, rfl⟩ := Nat.exists_eq_add_one_of_ne_zero (Nat.ne_zero_of_lt hl)
      obtain ⟨levels', rfl⟩ := Nat.exists_eq_add_one_of_ne_zero (Nat.ne_zero_of_lt hl')
      cases hn : t.get? id with
      | none => rw [writtenNode, writtenNode, hn]
      | some n =>
          cases he : n.isElement with
          | false => rw [writtenNode_leaf l _ _ _ _ hn he, writtenNode_leaf l _ _ _ _ hn he]
          | true =>
              by_cases hc : n.children = []
              · rw [writtenNode_empty l _ _ _ _ hn he hc, writtenNode_empty l _ _ _ _ hn he hc]
              · rw [writtenNode_element l _ _ _ _ hn he hc, writtenNode_element l _ _ _ _ hn he hc]
                congr 3
                refine List.flatMap_congr fun c hm => congrArg _ ?_
                rw [← childrenOf_of_get? hn] at hm
                obtain ⟨h', rfl, hh'⟩ := hh.child hf hm
                exact ih c hm hh' (by omega) (by omega) _ _ _

end Forest

def writtenBelow (l : Layout) (t : Tree) (depth : Nat) (spread : Bool) (xmlns : Option String)
    (id : NodeId) : List Char :=
  l.writtenNode t t.nodes.size depth spread xmlns id

section Below

variable (l : Layout) {t : Tree} {id : NodeId} {n : Node} (hn : t.get? id = some n)
  (depth : Nat) (spread : Bool) (xmlns : Option String)

include hn

theorem exists_size_eq : ∃ levels, t.nodes.size = levels + 1 :=
  Nat.exists_eq_add_one_of_ne_zero (Nat.ne_zero_of_lt (lt_size_of_get? hn))

theorem writtenBelow_leaf (he : n.isElement = false) :
    l.writtenBelow t depth spread xmlns id = writtenLeaf n := by
  obtain ⟨levels, hs⟩ := exists_size_eq hn
  rw [writtenBelow, hs, writtenNode_leaf l levels depth spread xmlns hn he]

omit hn in
theorem writtenBelow_text {value : String} (hv : t.text? id = some value) :
    l.writtenBelow t depth spread xmlns id = Text.escapeData value := by
  obtain ⟨n, hn, ht, rfl⟩ := text?_eq_some_iff.1 hv
  cases hk : n.kind <;> simp_all [Node.isText, l.writtenBelow_leaf hn, writtenLeaf, Node.isElement]

theorem writtenBelow_empty (he : n.isElement = true) (hc : n.children = []) :
    l.writtenBelow t depth spread xmlns id = writtenHead n xmlns ++ ['/', '>'] := by
  obtain ⟨levels, hs⟩ := exists_size_eq hn
  rw [writtenBelow, hs, writtenNode_empty l levels depth spread xmlns hn he hc]

theorem writtenBelow_nested (hf : Forest t) (he : n.isElement = true) (hc : n.children ≠ [])
    {inner : Bool} (hi : inner = (spread && !t.mixes n.children)) :
    l.writtenBelow t depth spread xmlns id =
      writtenHead n xmlns ++ '>' :: (n.children.flatMap (fun c => l.lead inner (depth + 1) ++
        l.writtenBelow t (depth + 1) inner none c) ++
          (l.lead inner depth ++ '<' :: '/' :: (n.name.toList ++ ['>']))) := by
  obtain ⟨levels, hs⟩ := exists_size_eq hn
  rw [writtenBelow, hs, writtenNode_element l levels depth spread xmlns hn he hc, ← hi]
  congr 3
  refine List.flatMap_congr fun c hm => congrArg _ ?_
  obtain ⟨h, hlt, hh⟩ := hf.exists_height (lt_size_of_get? hn)
  rw [← childrenOf_of_get? hn] at hm
  obtain ⟨h', rfl, hh'⟩ := hh.child hf hm
  exact writtenNode_levels l hf hh' (by omega) (by omega) _ _ _

end Below

end Layout

end BookMarkup
