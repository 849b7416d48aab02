import BookMarkup.Proofs.Tree.Order
import Mathlib.Data.List.Flatten

/-!
Which of two live nodes comes first in document order. All that lies within a node comes before all
that lies within a later sibling, so that a loop over what a selector finds takes siblings, and what
is within them, from left to right.
-/

namespace BookMarkup.Tree

/-- The node `x` comes before `y` in document order. -/
def Precedes (t : Tree) (x y : NodeId) : Prop :=
  [x, y].Sublist (t.live.map Node.id)

section Forest

variable {t : Tree} (hf : Forest t)

include hf

theorem Forest.mem_map_subtree {i j : NodeId} (hi : i < t.nodes.size) :
    i ∈ (t.subtree j).map Node.id ↔ Within t i j := by
  obtain ⟨n, hn⟩ := Option.isSome_iff_exists.1 (get?_isSome_iff.2 hi)
  have hid := hf.numbered hn
  rw [List.mem_map]
  constructor
  · rintro ⟨m, hm, rfl⟩
    exact (hf.mem_subtree.1 hm).2
  · intro hw
    exact ⟨n, hf.mem_subtree.2 ⟨by rwa [hid], by rwa [hid]⟩, hid⟩

theorem Forest.subtree_sublist {i j : NodeId} (hw : Within t i j) :
    (t.subtree i).Sublist (t.subtree j) := by
  induction hw with
  | refl => exact .refl _
  | @step i p j hp _ ih =>
      obtain ⟨n, hn⟩ := Option.isSome_iff_exists.1 (get?_isSome_iff.2 (hf.parent_lt hp))
      have hmem : i ∈ n.children := childrenOf_of_get? hn ▸ hf.mem_childrenOf.2 hp
      rw [hf.subtree_eq hn, List.flatMap_def] at ih
      refine .trans ?_ ih
      exact .cons n (List.sublist_flatten_of_mem (List.mem_map_of_mem hmem))

theorem Forest.precedes_of_siblings {p a b x y : NodeId} (hp : t.Live p)
    (hab : [a, b].Sublist (t.childrenOf p)) (hx : Within t x a) (hy : Within t y b) :
    t.Precedes x y := by
  obtain ⟨r, hr, hw⟩ := hp
  obtain ⟨n, hn⟩ := Option.isSome_iff_exists.1
    (get?_isSome_iff.2 (lt_size_of_mem_childrenOf (hab.subset (List.mem_cons_self))))
  have known {i c : NodeId} (hc : c ∈ [a, b]) (hi : Within t i c) : i < t.nodes.size := by
    cases hi with
    | refl => exact lt_size_of_parentOf (hf.mem_childrenOf.1 (hab.subset hc))
    | step hp _ => exact lt_size_of_parentOf hp
  have hxa := (hf.mem_map_subtree (known (by simp) hx)).2 hx
  have hyb := (hf.mem_map_subtree (known (by simp) hy)).2 hy
  rw [childrenOf_of_get? hn] at hab
  rw [Precedes, hf.live_eq hr]
  calc [x, y]
    _ = [x] ++ [y] := rfl
    _ |>.Sublist ((t.subtree a).map Node.id ++ (t.subtree b).map Node.id) :=
      (List.singleton_sublist.2 hxa).append (List.singleton_sublist.2 hyb)
    _ = ([a, b].flatMap t.subtree).map Node.id := by simp
    _ |>.Sublist ((n :: n.children.flatMap t.subtree).map Node.id) :=
      ((hab.flatMap t.subtree).cons n).map Node.id
    _ = (t.subtree p).map Node.id := by rw [hf.subtree_eq hn]
    _ |>.Sublist ((t.subtree r).map Node.id) := (hf.subtree_sublist hw).map Node.id

theorem Forest.precedes_of_below {a b : NodeId} (hl : t.Live a) (hb : Below t b a) :
    t.Precedes a b := by
  obtain ⟨r, hr, hw⟩ := hl
  obtain ⟨p, hp, hpa⟩ := below_iff.1 hb
  have hne : b ≠ a := by
    rintro rfl
    exact hf.not_within_parent hp hpa
  obtain ⟨n, hn⟩ := Option.isSome_iff_exists.1 (get?_isSome_iff.2 (hw.live ⟨r, hr, .refl r⟩ |>.lt hf))
  have hmem := (hf.mem_map_subtree (lt_size_of_parentOf hp)).2 hb.within
  rw [hf.subtree_eq hn, List.map_cons, hf.numbered hn, List.mem_cons] at hmem
  rw [Precedes, hf.live_eq hr]
  calc [a, b]
    _ |>.Sublist (a :: (n.children.flatMap t.subtree).map Node.id) :=
      (List.singleton_sublist.2 (hmem.resolve_left hne)).cons_cons a
    _ = (t.subtree a).map Node.id := by rw [hf.subtree_eq hn, List.map_cons, hf.numbered hn]
    _ |>.Sublist ((t.subtree r).map Node.id) := (hf.subtree_sublist hw).map Node.id

end Forest

/-! ### Loops in document order -/

theorem select_eq_filter (s : Selector) (t : Tree) :
    s.select t = (t.live.map Node.id).filter (s.accepts t) := by
  rw [List.filter_map, Selector.select, find]
  rfl

theorem pair_sublist_of_mem_left {x y : NodeId} {before : List NodeId} (hx : x ∈ before)
    (after : List NodeId) : [x, y].Sublist (before ++ y :: after) :=
  (List.singleton_sublist.2 hx).append (List.singleton_sublist.2 List.mem_cons_self)

theorem pair_sublist_of_mem_right {x y : NodeId} {after : List NodeId} (hy : y ∈ after)
    (before : List NodeId) : [x, y].Sublist (before ++ x :: after) :=
  ((List.singleton_sublist.2 hy).cons_cons x).trans (List.sublist_append_right _ _)

/-- In a list without repetition, what comes before a node comes in the part before it. -/
theorem mem_of_pair_sublist {x y : NodeId} {done rest : List NodeId}
    (hd : (done ++ y :: rest).Nodup) (h : [x, y].Sublist (done ++ y :: rest)) : x ∈ done := by
  obtain ⟨l₁, l₂, he, h₁, h₂⟩ := List.sublist_append_iff.1 h
  cases l₁ with
  | nil =>
      have hy : y ∈ rest := by
        rw [List.nil_append] at he
        subst he
        cases h₂ with
        | cons _ h₂ => exact h₂.subset (by simp)
        | cons_cons _ h₂ => exact h₂.subset (by simp)
      exact absurd hy (not_mem_of_nodup hd).2
  | cons z l₁ =>
      rw [List.cons_append, List.cons.injEq] at he
      exact he.1 ▸ h₁.subset List.mem_cons_self

/-- A loop that takes the nodes of a list in their order has passed one more of them. -/
theorem filter_mem_append {x : NodeId} {done before after : List NodeId}
    (hd : (before ++ x :: after).Nodup) (hx : x ∉ done) (hlater : ∀ y ∈ after, y ∉ done) :
    (before ++ x :: after).filter (fun y => y ∈ done ++ [x]) =
      ((before ++ x :: after).filter fun y => y ∈ done) ++ [x] := by
  have hrest := not_mem_of_nodup hd
  have hbefore : before.filter (fun y => y ∈ done ++ [x]) = before.filter fun y => y ∈ done :=
    List.filter_congr fun y hy => by simp [ne_of_mem_of_not_mem hy hrest.1]
  have hafter : after.filter (fun y => y ∈ done ++ [x]) = [] := by
    refine List.filter_eq_nil_iff.2 fun y hy => ?_
    simp [hlater y hy, ne_of_mem_of_not_mem hy hrest.2]
  have hafter' : after.filter (fun y => y ∈ done) = [] :=
    List.filter_eq_nil_iff.2 fun y hy => by simp [hlater y hy]
  rw [List.filter_append, List.filter_append, hbefore, List.filter_cons_of_pos (by simp),
    List.filter_cons_of_neg (by simpa using hx), hafter, hafter', List.append_nil]

section Precedes

variable {t : Tree} (hf : Forest t) {s : Selector} {x y : NodeId} {done rest : List NodeId}

include hf

/-- When it is the turn of a node, those before it have had theirs. -/
theorem Precedes.mem_done (h : t.Precedes x y) (hids : done ++ y :: rest = s.select t)
    (hx : x ∈ s.select t) : x ∈ done := by
  have hy : y ∈ s.select t := hids ▸ by simp
  have hd := hf.nodup_select s
  rw [← hids] at hd
  refine mem_of_pair_sublist hd ?_
  rw [hids, select_eq_filter]
  rw [select_eq_filter] at hx hy
  have hxy : [x, y].filter (s.accepts t) = [x, y] := by
    simp [(List.mem_filter.1 hx).2, (List.mem_filter.1 hy).2]
  exact hxy ▸ List.Sublist.filter (s.accepts t) h

theorem Precedes.asymm (h : t.Precedes x y) : ¬ t.Precedes y x := by
  intro h'
  obtain ⟨before, after, hl⟩ := List.append_of_mem (List.Sublist.subset h (by simp : y ∈ [x, y]))
  have hd := hf.nodup_live
  rw [Precedes, hl] at h
  rw [hl] at hd
  obtain ⟨l₁, l₂, rfl⟩ := List.append_of_mem (mem_of_pair_sublist hd h)
  have hl' : l₁ ++ x :: l₂ ++ y :: after = l₁ ++ x :: (l₂ ++ y :: after) := by simp
  rw [Precedes, hl, hl'] at h'
  have hy := mem_of_pair_sublist (hl' ▸ hd) h'
  exact (not_mem_of_nodup hd).1 (List.mem_append_left _ hy)

theorem Precedes.notMem_done (h : t.Precedes x y) (hids : done ++ x :: rest = s.select t) :
    y ∉ done := by
  intro hy
  refine h.asymm hf ?_
  calc [y, x]
    _ |>.Sublist (done ++ x :: rest) := pair_sublist_of_mem_left hy rest
    _ = (t.live.map Node.id).filter (s.accepts t) := by rw [hids, select_eq_filter]
    _ |>.Sublist (t.live.map Node.id) := List.filter_sublist

end Precedes

end BookMarkup.Tree
