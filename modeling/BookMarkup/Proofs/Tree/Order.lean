import BookMarkup.Proofs.Tree.Links
import BookMarkup.Selector
import Mathlib.Data.List.Nodup

/-!
Walks of a forest. The walk with a stack visits a node and all below it in document order, each
once, and never meets an unknown number; the live nodes are those within the root. What a selector
finds is told by membership, so that later arguments need not look at the order.
-/

namespace BookMarkup.Tree

def subtree (t : Tree) (id : NodeId) : List Node :=
  t.preorder t.nodes.size id

/-- No chain of parents that ends at the node is longer than `h`. -/
def HeightAtMost (t : Tree) (id : NodeId) (h : Nat) : Prop :=
  ∀ steps i, t.ascend steps i = some id → steps ≤ h

section Forest

variable {t : Tree} (hf : Forest t)

include hf

theorem Forest.heightAtMost (id : NodeId) : HeightAtMost t id t.nodes.size :=
  fun _ _ h => hf.steps_le h

theorem HeightAtMost.child {id c : NodeId} {h : Nat} (hh : HeightAtMost t id h)
    (hc : c ∈ t.childrenOf id) : ∃ h', h = h' + 1 ∧ HeightAtMost t c h' := by
  have up {steps : Nat} {i : NodeId} (hs : t.ascend steps i = some c) :
      t.ascend (steps + 1) i = some id := by
    rw [ascend_succ, hs, Option.bind_some, hf.mem_childrenOf.1 hc]
  have hpos : 1 ≤ h := hh 1 c (up rfl)
  exact ⟨h - 1, by omega, fun steps i hs => by have := hh _ _ (up hs); omega⟩

theorem Forest.exists_height {id : NodeId} (hid : id < t.nodes.size) :
    ∃ h < t.nodes.size, HeightAtMost t id h :=
  ⟨t.nodes.size - 1, Nat.sub_one_lt_of_lt hid, fun _ _ hs => Nat.le_sub_one_of_lt
    (hf.steps_lt hid hs)⟩

/-- What holds of a node as soon as it holds of its children holds of every node. -/
theorem Forest.induction_children {P : NodeId → Prop}
    (step : ∀ id, (∀ c ∈ t.childrenOf id, P c) → P id) (id : NodeId) : P id := by
  have hh := hf.heightAtMost id
  generalize t.nodes.size = h at hh
  induction h generalizing id with
  | zero =>
      refine step id fun c hc => ?_
      obtain ⟨_, h0, _⟩ := hh.child hf hc
      simp at h0
  | succ h ih =>
      refine step id fun c hc => ?_
      obtain ⟨h', h0, hc'⟩ := hh.child hf hc
      obtain rfl : h = h' := by omega
      exact ih c hc'

/-- Once there are as many levels as the node is high, more of them change nothing. -/
theorem preorder_levels {id : NodeId} {h levels : Nat} (hh : HeightAtMost t id h)
    (hl : h ≤ levels) : t.preorder levels id = t.preorder h id := by
  induction h generalizing id levels with
  | zero =>
      cases levels with
      | zero => rfl
      | succ levels =>
          rw [preorder, preorder]
          cases hn : t.get? id with
          | none => rfl
          | some n =>
              have hnil : n.children = [] := List.eq_nil_iff_forall_not_mem.2 fun c hc => by
                obtain ⟨_, h0, _⟩ := hh.child hf (childrenOf_of_get? hn ▸ hc)
                simp at h0
              simp [hnil]
  | succ h ih =>
      obtain ⟨levels, rfl⟩ := Nat.exists_eq_add_of_le' hl
      rw [← Nat.add_assoc, preorder, preorder]
      cases hn : t.get? id with
      | none => rfl
      | some n =>
          simp only [List.cons.injEq, true_and]
          refine List.flatMap_congr fun c hc => ?_
          obtain ⟨h', h0, hc'⟩ := hh.child hf (childrenOf_of_get? hn ▸ hc)
          obtain rfl : h = h' := by omega
          exact ih hc' (by omega)

/-- A node comes before what lies below it, child by child. -/
theorem Forest.subtree_eq {id : NodeId} {n : Node} (hn : t.get? id = some n) :
    t.subtree id = n :: n.children.flatMap t.subtree := by
  obtain ⟨k, hk⟩ := Nat.exists_eq_add_of_le' (Nat.zero_lt_of_lt (lt_size_of_get? hn))
  rw [subtree, hk, preorder, hn]
  simp only [List.cons.injEq, true_and]
  refine List.flatMap_congr fun c hc => ?_
  obtain ⟨h, hh, hc'⟩ := (hf.heightAtMost id).child hf (childrenOf_of_get? hn ▸ hc)
  exact (preorder_levels hf hc' (by omega)).trans (preorder_levels hf hc' (by omega)).symm

/-- Two trees with the same children from a node downwards have the same nodes there, as far as the
nodes look the same one by one. -/
theorem Forest.map_subtree {β : Type} {u : Tree} (hu : Forest u) (f : Node → β) {id : NodeId}
    (hid : id < t.nodes.size)
    (h : ∀ i, Within t i id →
      (u.get? i).map f = (t.get? i).map f ∧ u.childrenOf i = t.childrenOf i) :
    (u.subtree id).map f = (t.subtree id).map f := by
  induction id using hf.induction_children with
  | step id ih =>
      obtain ⟨n, hn⟩ := Option.isSome_iff_exists.1 (get?_isSome_iff.2 hid)
      obtain ⟨hsame, hchild⟩ := h id (.refl id)
      rw [hn, Option.map_some, Option.map_eq_some_iff] at hsame
      obtain ⟨m, hm, hmn⟩ := hsame
      rw [childrenOf_of_get? hm, childrenOf_of_get? hn] at hchild
      rw [hu.subtree_eq hm, hf.subtree_eq hn, List.map_cons, List.map_cons, List.map_flatMap,
        List.map_flatMap, hmn, hchild]
      refine congrArg _ (List.flatMap_congr fun c hc => ?_)
      have hp := hf.mem_childrenOf.1 (childrenOf_of_get? hn ▸ hc)
      exact ih c (childrenOf_of_get? hn ▸ hc) (lt_size_of_parentOf hp) fun i hi => h i (hi.parent hp)

/-- The nodes of a subtree are the known nodes within it. -/
theorem mem_preorder {levels : Nat} {id : NodeId} {m : Node} (h : m ∈ t.preorder levels id) :
    t.get? m.id = some m ∧ Within t m.id id := by
  induction levels generalizing id with
  | zero =>
      rw [preorder, Option.mem_toList] at h
      rw [hf.numbered h]
      exact ⟨h, .refl id⟩
  | succ levels ih =>
      rw [preorder] at h
      cases hn : t.get? id with
      | none => simp [hn] at h
      | some n =>
          simp only [hn] at h
          rcases List.mem_cons.1 h with rfl | h
          · rw [hf.numbered hn]
            exact ⟨hn, .refl id⟩
          · obtain ⟨c, hc, hm⟩ := List.mem_flatMap.1 h
            obtain ⟨hg, hw⟩ := ih hm
            exact ⟨hg, hw.parent (hf.mem_childrenOf.1 (childrenOf_of_get? hn ▸ hc))⟩

theorem Forest.mem_subtree {id : NodeId} {m : Node} :
    m ∈ t.subtree id ↔ t.get? m.id = some m ∧ Within t m.id id := by
  constructor
  · exact mem_preorder hf
  rintro ⟨hm, hw⟩
  -- The chain from the node up to `id` is taken apart at its upper end, as the subtree is.
  obtain ⟨steps, hs⟩ := within_iff_ascend.1 hw
  clear hw
  induction steps generalizing id with
  | zero =>
      rw [ascend, Option.some.injEq] at hs
      rw [hf.subtree_eq (hs ▸ hm)]
      exact List.mem_cons_self
  | succ steps ih =>
      rw [ascend_succ] at hs
      obtain ⟨c, hc, hp⟩ := Option.bind_eq_some_iff.1 hs
      have hchild := hf.mem_childrenOf.2 hp
      obtain ⟨n, hn⟩ := Option.isSome_iff_exists.1
        (get?_isSome_iff.2 (lt_size_of_mem_childrenOf hchild))
      rw [hf.subtree_eq hn]
      rw [childrenOf_of_get? hn] at hchild
      exact List.mem_cons_of_mem n (List.mem_flatMap.2 ⟨c, hchild, ih hc⟩)

theorem nodup_preorder (levels : Nat) (id : NodeId) :
    ((t.preorder levels id).map Node.id).Nodup := by
  induction levels generalizing id with
  | zero =>
      rw [preorder]
      cases t.get? id <;> simp
  | succ levels ih =>
      rw [preorder]
      cases hn : t.get? id with
      | none => simp
      | some n =>
          have within {i c : NodeId} (hi : i ∈ (t.preorder levels c).map Node.id) :
              Within t i c := by
            obtain ⟨m, hm, rfl⟩ := List.mem_map.1 hi
            exact (mem_preorder hf hm).2
          have parent {c : NodeId} (hc : c ∈ n.children) : t.parentOf c = some id :=
            hf.mem_childrenOf.1 (childrenOf_of_get? hn ▸ hc)
          simp only [List.map_cons, List.map_flatMap]
          rw [List.nodup_cons, hf.numbered hn, List.nodup_flatMap]
          refine ⟨fun hi => ?_, fun c _ => ih c, ?_⟩
          · obtain ⟨c, hc, hi⟩ := List.mem_flatMap.1 hi
            exact hf.not_within_parent (parent hc) (within hi)
          · refine (hf.nodup hn).imp_of_mem fun {c d} hc hd hcd => ?_
            intro i hi hi'
            -- A node below two children of one node would put one child above the other.
            rcases (within hi).total (within hi') with h | h
            · cases h with
              | refl => exact hcd rfl
              | step hp h =>
                  rw [parent hc, Option.some.injEq] at hp
                  exact hf.not_within_parent (parent hd) (hp ▸ h)
            · cases h with
              | refl => exact hcd rfl
              | step hp h =>
                  rw [parent hd, Option.some.injEq] at hp
                  exact hf.not_within_parent (parent hc) (hp ▸ h)

theorem Forest.nodup_subtree (id : NodeId) : ((t.subtree id).map Node.id).Nodup :=
  nodup_preorder hf _ id

theorem Forest.length_subtree_le (id : NodeId) : (t.subtree id).length ≤ t.nodes.size := by
  have hsub : (t.subtree id).map Node.id ⊆ List.range t.nodes.size := by
    intro i hi
    obtain ⟨m, hm, rfl⟩ := List.mem_map.1 hi
    exact List.mem_range.2 (lt_size_of_get? (hf.mem_subtree.1 hm).1)
  simpa using (List.Nodup.subperm (hf.nodup_subtree id) hsub).length_le

/-! ### Loops with a stack -/

theorem Forest.flatMap_subtree_cons {i : NodeId} {n : Node} (hn : t.get? i = some n)
    (stack : List NodeId) :
    (i :: stack).flatMap t.subtree = n :: (n.children ++ stack).flatMap t.subtree := by
  rw [List.flatMap_cons, hf.subtree_eq hn, List.flatMap_append, List.cons_append]

/-- What holds of the empty stack, and of a stack as soon as it holds when the children of its first
node have come in the place of that node, holds of every stack of known nodes. -/
theorem Forest.induction_stack {P : List NodeId → Prop} (nil : P [])
    (cons : ∀ i n stack, t.get? i = some n → P (n.children ++ stack) → P (i :: stack))
    {stack : List NodeId} (hk : ∀ i ∈ stack, i < t.nodes.size) : P stack := by
  -- The stack may grow, but each turn leaves one node less to be taken from it.
  induction hl : (stack.flatMap t.subtree).length generalizing stack with
  | zero =>
      cases stack with
      | nil => exact nil
      | cons i stack =>
          obtain ⟨n, hn⟩ := Option.isSome_iff_exists.1
            (get?_isSome_iff.2 (hk i List.mem_cons_self))
          simp [hf.flatMap_subtree_cons hn] at hl
  | succ left ih =>
      cases stack with
      | nil => exact nil
      | cons i stack =>
          obtain ⟨n, hn⟩ := Option.isSome_iff_exists.1
            (get?_isSome_iff.2 (hk i List.mem_cons_self))
          rw [hf.flatMap_subtree_cons hn, List.length_cons, Nat.add_right_cancel_iff] at hl
          refine cons i n stack hn (ih (fun c hc => ?_) hl)
          rcases List.mem_append.1 hc with hc | hc
          · exact lt_size_of_parentOf (hf.mem_childrenOf.1 (childrenOf_of_get? hn ▸ hc))
          · exact hk c (List.mem_cons_of_mem i hc)

/-- With enough visits left, the walk ends with the subtrees of all nodes on the stack. -/
theorem walkFrom_eq {visits : Nat} {stack : List NodeId} {seen : List Node}
    (hk : ∀ i ∈ stack, i < t.nodes.size) (hv : (stack.flatMap t.subtree).length ≤ visits) :
    t.walkFrom visits stack seen = .ok (seen.reverse ++ stack.flatMap t.subtree) := by
  refine hf.induction_stack (P := fun stack => ∀ visits seen,
    (stack.flatMap t.subtree).length ≤ visits →
      t.walkFrom visits stack seen = .ok (seen.reverse ++ stack.flatMap t.subtree))
    (fun visits seen _ => by simp [walkFrom]) (fun i n stack hn ih visits seen hv => ?_) hk
    visits seen hv
  rw [hf.flatMap_subtree_cons hn] at hv ⊢
  cases visits with
  | zero => simp at hv
  | succ visits =>
      rw [walkFrom, hn]
      simp only
      rw [ih visits (n :: seen) (Nat.le_of_succ_le_succ hv)]
      simp

theorem Forest.walk_eq {id : NodeId} (hid : id < t.nodes.size) :
    t.walk id = .ok (t.subtree id) := by
  have hlen := hf.length_subtree_le id
  rw [walk, walkFrom_eq hf (by simpa using hid) (by simp; omega)]
  simp

theorem Forest.textContent_eq {id : NodeId} (hid : id < t.nodes.size) : t.textContent id =
    .ok (String.join (((t.subtree id).filter Node.isCharacterData).map Node.value)) := by
  rw [textContent, hf.walk_eq hid]
  rfl

end Forest

/-! ### Live nodes -/

def Live (t : Tree) (i : NodeId) : Prop :=
  ∃ r, t.root = some r ∧ Within t i r

theorem Within.live {t : Tree} {i j : NodeId} (h : Within t i j) (hj : t.Live j) : t.Live i := by
  obtain ⟨r, hr, hw⟩ := hj
  exact ⟨r, hr, h.trans hw⟩

theorem Live.child {t : Tree} {p c : NodeId} (hp : t.Live p) (hc : t.parentOf c = some p) :
    t.Live c :=
  (Within.step hc (.refl p)).live hp

section Live

variable {t : Tree} (hf : Forest t)

include hf

theorem Forest.root_lt {r : NodeId} (hr : t.root = some r) : r < t.nodes.size := by
  obtain ⟨n, hn, _⟩ := hf.elementRoot hr
  exact lt_size_of_get? hn

theorem Forest.live_eq {r : NodeId} (hr : t.root = some r) : t.live = t.subtree r := by
  rw [live, hr]
  simp only
  rw [hf.walk_eq (hf.root_lt hr)]
  rfl

theorem Forest.mem_live {m : Node} : m ∈ t.live ↔ t.get? m.id = some m ∧ t.Live m.id := by
  cases hr : t.root with
  | none => simp [live, hr, Live]
  | some r => simp [hf.live_eq hr, hf.mem_subtree, Live, hr]

theorem Live.lt {i : NodeId} (h : t.Live i) : i < t.nodes.size := by
  obtain ⟨r, hr, hw⟩ := h
  cases hw with
  | refl => exact hf.root_lt hr
  | step hp _ => exact lt_size_of_parentOf hp

theorem Forest.mem_map_live {i : NodeId} : i ∈ t.live.map Node.id ↔ t.Live i := by
  rw [List.mem_map]
  constructor
  · rintro ⟨m, hm, rfl⟩
    exact (hf.mem_live.1 hm).2
  · intro h
    obtain ⟨n, hn⟩ := Option.isSome_iff_exists.1 (get?_isSome_iff.2 (h.lt hf))
    have hi := hf.numbered hn
    exact ⟨n, hf.mem_live.2 ⟨by rwa [hi], by rwa [hi]⟩, hi⟩

theorem Forest.nodup_live : (t.live.map Node.id).Nodup := by
  cases hr : t.root with
  | none => simp [live, hr]
  | some r =>
      rw [hf.live_eq hr]
      exact hf.nodup_subtree r

theorem Forest.mem_find {p : Node → Bool} {i : NodeId} :
    i ∈ t.find p ↔ t.Live i ∧ ∃ n, t.get? i = some n ∧ p n := by
  simp only [find, List.mem_map, List.mem_filter, hf.mem_live]
  constructor
  · rintro ⟨m, ⟨⟨hm, hl⟩, hp⟩, rfl⟩
    exact ⟨hl, m, hm, hp⟩
  · rintro ⟨hl, n, hn, hp⟩
    have hi := hf.numbered hn
    exact ⟨n, ⟨⟨by rwa [hi], by rwa [hi]⟩, hp⟩, hi⟩

theorem Forest.nodup_find (p : Node → Bool) : (t.find p).Nodup :=
  (List.filter_sublist.map Node.id).nodup hf.nodup_live

theorem Forest.mem_select {s : Selector} {i : NodeId} :
    i ∈ s.select t ↔ t.Live i ∧ s.accepts t i := by
  rw [Selector.select, hf.mem_find]
  constructor
  · rintro ⟨hl, n, hn, ha⟩
    rw [hf.numbered hn] at ha
    exact ⟨hl, ha⟩
  · rintro ⟨hl, ha⟩
    obtain ⟨n, hn⟩ := Option.isSome_iff_exists.1 (get?_isSome_iff.2 (hl.lt hf))
    exact ⟨hl, n, hn, by rwa [hf.numbered hn]⟩

theorem Forest.select_eq_nil_iff {s : Selector} :
    s.select t = [] ↔ ∀ i, t.Live i → ¬ s.accepts t i = true := by
  simp only [List.eq_nil_iff_forall_not_mem, hf.mem_select, not_and]

theorem Forest.nodup_select (s : Selector) : (s.select t).Nodup :=
  hf.nodup_find _

end Live

end BookMarkup.Tree
