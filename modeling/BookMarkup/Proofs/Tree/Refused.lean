import BookMarkup.Proofs.Tree.Outcome

/-!
What a refused change leaves behind. Most changes look at all that they need before they do anything.
Only a move detaches its node before it looks at the place where the node is to go. Main statement:
a forest refuses a change for the first of its checks that fails, and then it is as it was, but for
the node of such a move, which is detached.
-/

namespace BookMarkup.Tree

def unknown? (t : Tree) (id : NodeId) : Option Fault :=
  if id < t.nodes.size then none else some (.unknown id)

def notAnElement? (t : Tree) (id : NodeId) : Option Fault :=
  match t.get? id with
  | none => some (.unknown id)
  | some n => if n.isElement then none else some (.notAnElement id n.name)

def detached? (t : Tree) (id : NodeId) : Option Fault :=
  if t.parentOf id = none then some (.detached id) else none

/-- Why a forest refuses a change, if it does. -/
def Change.fault? (t : Tree) : Change → Option Fault
  | .create _ | .clear => none
  | .setRoot id | .rename id _ => t.notAnElement? id
  | .detach id | .remove id => t.unknown? id
  | .setAttribute id _ _ | .removeAttribute id _ | .renameAttribute id _ _ => t.unknown? id
  | .appendChild parent child => (t.unknown? parent).or (t.unknown? child)
  | .insertChild parent _ child =>
      if parent = child then none else (t.unknown? child).or (t.unknown? parent)
  | .insertBefore reference id | .insertAfter reference id =>
      if reference = id then none
      else (t.unknown? id).or ((t.unknown? reference).or (t.detached? reference))

/-- The node that a change has detached by the time it is refused, if it has. -/
def Change.uprooted? (t : Tree) : Change → Option NodeId
  | .insertChild parent _ child =>
      if child < t.nodes.size ∧ t.nodes.size ≤ parent then some child else none
  | .insertBefore reference id | .insertAfter reference id =>
      if id < t.nodes.size ∧ reference ≠ id ∧ t.parentOf reference = none then some id else none
  | _ => none

def Change.remains (t : Tree) (c : Change) : Tree :=
  (c.uprooted? t).elim t t.detached

theorem run_bind_pure_eq_error {α β : Type} {e : Edit α} {g : α → β} {t t' : Tree} {f : Failure} :
    (e >>= fun a => pure (g a)).run t = .error f t' ↔ e.run t = .error f t' := by
  rw [EStateM.run_bind]
  cases e.run t <;> simp

section Refused

variable {t : Tree} {f : Fault} {t' : Tree} {id : NodeId}

theorem unknown?_of_lt (h : id < t.nodes.size) : t.unknown? id = none :=
  if_pos h

theorem unknown?_of_le (h : t.nodes.size ≤ id) : t.unknown? id = some (.unknown id) :=
  if_neg (Nat.not_lt.2 h)

theorem run_change_eq_error {g : Node → Node} :
    (Edit.change id g).run t = .error (.fault f) t' ↔ t.unknown? id = some f ∧ t' = t := by
  rw [run_change, unknown?]
  split <;> simp [eq_comm]

theorem run_removeAttribute_eq_error {name : String} :
    (Edit.removeAttribute id name).run t = .error (.fault f) t' ↔
      t.unknown? id = some f ∧ t' = t := by
  rw [run_removeAttribute, unknown?]
  cases hn : t.get? id with
  | none => simp [get?_eq_none_iff.1 hn, eq_comm]
  | some n => simp [lt_size_of_get? hn]

theorem run_renameAttribute_eq_error {old new : String} :
    (Edit.renameAttribute id old new).run t = .error (.fault f) t' ↔
      t.unknown? id = some f ∧ t' = t := by
  rw [run_renameAttribute, unknown?]
  cases hn : t.get? id with
  | none => simp [get?_eq_none_iff.1 hn, eq_comm]
  | some n =>
      simp only [lt_size_of_get? hn, if_true, reduceCtorEq, false_and, iff_false]
      cases n.attributes.rename old new <;> simp

theorem run_rename_eq_error {tag : String} :
    (Edit.rename id tag).run t = .error (.fault f) t' ↔ t.notAnElement? id = some f ∧ t' = t := by
  rw [run_rename, notAnElement?]
  cases t.get? id with
  | none => simp [eq_comm]
  | some n =>
      simp only
      split <;> simp [eq_comm]

theorem run_setRoot_eq_error :
    (Edit.setRoot id).run t = .error (.fault f) t' ↔ t.notAnElement? id = some f ∧ t' = t := by
  rw [run_setRoot, notAnElement?]
  cases t.get? id with
  | none => simp [eq_comm]
  | some n =>
      simp only
      split <;> simp [eq_comm]

/-! ### Moves that have gone halfway -/

theorem uprooted_insertChild_iff {p k c n : NodeId} :
    (Change.insertChild p k c).uprooted? t = some n ∧
        (Change.insertChild p k c).fault? t = some f ↔
      c = n ∧ n < t.nodes.size ∧ t.nodes.size ≤ p ∧ f = .unknown p := by
  simp only [Change.uprooted?, Change.fault?, Option.ite_none_right_eq_some, Option.some.injEq]
  constructor
  · rintro ⟨⟨⟨hc, hp⟩, rfl⟩, hfault⟩
    rw [if_neg (Nat.ne_of_gt (Nat.lt_of_lt_of_le hc hp)), unknown?_of_lt hc,
      unknown?_of_le hp] at hfault
    exact ⟨rfl, hc, hp, (Option.some.inj hfault).symm⟩
  · rintro ⟨rfl, hc, hp, rfl⟩
    rw [if_neg (Nat.ne_of_gt (Nat.lt_of_lt_of_le hc hp)), unknown?_of_lt hc, unknown?_of_le hp]
    exact ⟨⟨⟨hc, hp⟩, rfl⟩, rfl⟩

theorem uprooted_insertBefore_iff {r c n : NodeId} :
    (Change.insertBefore r c).uprooted? t = some n ∧
        (Change.insertBefore r c).fault? t = some f ↔
      c = n ∧ n < t.nodes.size ∧ r ≠ n ∧ (t.nodes.size ≤ r ∧ f = .unknown r ∨
        r < t.nodes.size ∧ t.parentOf r = none ∧ f = .detached r) := by
  simp only [Change.uprooted?, Change.fault?, Option.ite_none_right_eq_some, Option.some.injEq]
  constructor
  · rintro ⟨⟨⟨hc, hrc, hp⟩, rfl⟩, hfault⟩
    rw [if_neg hrc, unknown?_of_lt hc, Option.none_or, detached?, if_pos hp] at hfault
    refine ⟨rfl, hc, hrc, ?_⟩
    by_cases hr : r < t.nodes.size
    · rw [unknown?_of_lt hr] at hfault
      exact .inr ⟨hr, hp, (Option.some.inj hfault).symm⟩
    · rw [unknown?_of_le (Nat.le_of_not_lt hr)] at hfault
      exact .inl ⟨Nat.le_of_not_lt hr, (Option.some.inj hfault).symm⟩
  · rintro ⟨rfl, hc, hrc, ⟨hr, rfl⟩ | ⟨hr, hp, rfl⟩⟩
    · rw [if_neg hrc, unknown?_of_lt hc, unknown?_of_le hr]
      exact ⟨⟨⟨hc, hrc, parentOf_eq_none_of_size_le hr⟩, rfl⟩, rfl⟩
    · rw [if_neg hrc, unknown?_of_lt hc, unknown?_of_lt hr, detached?, if_pos hp]
      exact ⟨⟨⟨hc, hrc, hp⟩, rfl⟩, rfl⟩

theorem uprooted_iff {c : Change} {n : NodeId} :
    c.uprooted? t = some n ∧ c.fault? t = some f ↔
      (∃ p k, c = .insertChild p k n ∧ n < t.nodes.size ∧ t.nodes.size ≤ p ∧ f = .unknown p) ∨
      ∃ r, (c = .insertBefore r n ∨ c = .insertAfter r n) ∧ n < t.nodes.size ∧ r ≠ n ∧
        (t.nodes.size ≤ r ∧ f = .unknown r ∨
          r < t.nodes.size ∧ t.parentOf r = none ∧ f = .detached r) := by
  constructor
  · intro h
    cases c with
    | insertChild p k c =>
        obtain ⟨rfl, h⟩ := uprooted_insertChild_iff.1 h
        exact .inl ⟨p, k, rfl, h⟩
    | insertBefore r c =>
        obtain ⟨rfl, h⟩ := uprooted_insertBefore_iff.1 h
        exact .inr ⟨r, .inl rfl, h⟩
    | insertAfter r c =>
        obtain ⟨rfl, h⟩ := uprooted_insertBefore_iff.1 h
        exact .inr ⟨r, .inr rfl, h⟩
    | _ => cases h.1
  · rintro (⟨p, k, rfl, h⟩ | ⟨r, rfl | rfl, h⟩)
    · exact uprooted_insertChild_iff.2 ⟨rfl, h⟩
    · exact uprooted_insertBefore_iff.2 ⟨rfl, h⟩
    · exact uprooted_insertBefore_iff.2 ⟨rfl, h⟩

/-! ### Refusals of a forest -/

variable (hf : Forest t)

include hf

theorem run_detach_eq_error :
    (Edit.detach id).run t = .error (.fault f) t' ↔ t.unknown? id = some f ∧ t' = t := by
  rw [run_detach hf, unknown?]
  split <;> simp [eq_comm]

theorem Forest.lt_of_within {i j : NodeId} (h : Within t i j) (hij : i ≠ j) :
    i < t.nodes.size ∧ j < t.nodes.size := by
  induction h with
  | refl => exact absurd rfl hij
  | @step i k j hp h ih =>
      refine ⟨lt_size_of_parentOf hp, ?_⟩
      by_cases hkj : k = j
      · exact hkj ▸ hf.parent_lt hp
      · exact (ih hkj).2

theorem run_insertChild_eq_error {p k c : Nat} :
    (Edit.insertChild p k c).run t = .error (.fault f) t' ↔
      (Change.insertChild p k c).fault? t = some f ∧ t' = (Change.insertChild p k c).remains t := by
  simp only [Change.fault?, Change.remains, Change.uprooted?]
  rw [run_insertChild hf]
  by_cases hpc : p = c
  · rw [if_pos (hf.isAncestor_iff.2 (hpc ▸ .refl p)), if_pos hpc]
    simp
  rw [if_neg hpc]
  by_cases hw : Within t p c
  · obtain ⟨hp, hc⟩ := hf.lt_of_within hw hpc
    rw [if_pos (hf.isAncestor_iff.2 hw), unknown?_of_lt hp, unknown?_of_lt hc]
    simp
  rw [if_neg (mt hf.isAncestor_iff.1 hw)]
  by_cases hc : c < t.nodes.size
  · by_cases hp : p < t.nodes.size
    · simp [hc, hp, unknown?_of_lt]
    · simp [hc, hp, unknown?_of_lt, unknown?_of_le (Nat.le_of_not_lt hp), Nat.le_of_not_lt hp,
        eq_comm]
  · simp [hc, unknown?_of_le (Nat.le_of_not_lt hc), eq_comm]

theorem run_appendChild_eq_error {p c : NodeId} :
    (Edit.appendChild p c).run t = .error (.fault f) t' ↔
      (t.unknown? p).or (t.unknown? c) = some f ∧ t' = t := by
  rw [run_appendChild]
  by_cases hp : p < t.nodes.size
  · rw [if_pos hp, run_insertChild_eq_error hf, unknown?_of_lt hp]
    simp only [Change.fault?, Change.remains, Change.uprooted?, Nat.not_le.2 hp, and_false,
      if_false, Option.elim_none, Option.none_or, unknown?_of_lt hp, Option.or_none]
    by_cases hpc : p = c
    · simp [hpc, unknown?_of_lt (hpc ▸ hp)]
    · rw [if_neg hpc]
  · rw [if_neg hp, unknown?_of_le (Nat.le_of_not_lt hp)]
    simp [eq_comm]

/-- Once both nodes are known and the reference has a parent, there is no fault any more. -/
theorem run_insertBeside_eq_error {offset : Nat} {r c : NodeId} :
    (Edit.insertBeside offset r c).run t = .error (.fault f) t' ↔
      (Change.insertBefore r c).fault? t = some f ∧ t' = (Change.insertBefore r c).remains t := by
  simp only [Change.fault?, Change.remains, Change.uprooted?]
  by_cases hrc : r = c
  · simp [Edit.insertBeside, hrc]
  rw [run_insertBeside hf offset hrc, if_neg hrc]
  by_cases hc : c < t.nodes.size
  · rw [if_pos hc, unknown?_of_lt hc, Option.none_or]
    by_cases hr : r < t.nodes.size
    · rw [if_pos hr, unknown?_of_lt hr, Option.none_or, detached?]
      cases hp : t.parentOf r with
      | none => simp [hc, hrc, eq_comm]
      | some p =>
          have hps : p < (t.detached c).nodes.size := by simpa using hf.parent_lt hp
          have hcs : c < (t.detached c).nodes.size := by simpa using hc
          simp only [run_insertChild_eq_error (hf.detached c), Change.fault?, unknown?_of_lt hps,
            unknown?_of_lt hcs]
          simp
    · have hp := parentOf_eq_none_of_size_le (Nat.le_of_not_lt hr)
      simp [hr, hc, hrc, hp, unknown?_of_le (Nat.le_of_not_lt hr), eq_comm]
  · simp [hc, unknown?_of_le (Nat.le_of_not_lt hc), eq_comm]

/-- A forest refuses a change for the first check that fails. -/
theorem Forest.perform_eq_error {c : Change} :
    c.perform.run t = .error (.fault f) t' ↔ c.fault? t = some f ∧ t' = c.remains t := by
  cases c with
  | create content => exact run_bind_pure_eq_error.trans (iff_of_false nofun nofun)
  | clear => exact run_bind_pure_eq_error.trans (iff_of_false nofun nofun)
  | setRoot id => exact run_bind_pure_eq_error.trans run_setRoot_eq_error
  | detach id => exact run_bind_pure_eq_error.trans (run_detach_eq_error hf)
  | remove id => exact run_bind_pure_eq_error.trans (run_detach_eq_error hf)
  | appendChild parent child => exact run_bind_pure_eq_error.trans (run_appendChild_eq_error hf)
  | insertChild parent index child =>
      exact run_bind_pure_eq_error.trans (run_insertChild_eq_error hf)
  | insertBefore reference id => exact run_bind_pure_eq_error.trans (run_insertBeside_eq_error hf)
  | insertAfter reference id => exact run_bind_pure_eq_error.trans (run_insertBeside_eq_error hf)
  | rename id tag => exact run_bind_pure_eq_error.trans run_rename_eq_error
  | setAttribute id name value => exact run_bind_pure_eq_error.trans run_change_eq_error
  | removeAttribute id name => exact run_bind_pure_eq_error.trans run_removeAttribute_eq_error
  | renameAttribute id old new => exact run_bind_pure_eq_error.trans run_renameAttribute_eq_error

/-- A node that has a parent has a place among its siblings, also without one of them. -/
theorem Forest.exists_position {r p : NodeId} (hp : t.parentOf r = some p) :
    ∃ k, position (t.childrenOf p) r p = .ok k :=
  ⟨_, position_eq_ok (hf.mem_childrenOf.2 hp)⟩

theorem Forest.previousSibling?_eq_error :
    t.previousSibling? id = .error f ↔ t.nodes.size ≤ id ∧ f = .unknown id := by
  rw [hf.previousSibling?_eq]
  split
  · next h => simp [Nat.not_le.2 h]
  · next h => simp [Nat.le_of_not_lt h, eq_comm]

end Refused

/-- Which changes are refused, and what they leave: the tree as it was, except after a move below a
node that is not there, or next to one that is not there or has no parent, which leaves its node
detached. A node with a parent is always found among its siblings. -/
theorem refused_of_reachable {t : Tree} (h : Reachable t) :
    (∀ (c : Change) (f : Fault) (t' : Tree),
      c.perform.run t = .error (.fault f) t' ↔ c.fault? t = some f ∧
      match c.uprooted? t with
      | none => t' = t
      | some n => (Edit.detach n).run t = .ok () t') ∧
    (∀ (c : Change) (n : NodeId) (f : Fault), c.uprooted? t = some n ∧ c.fault? t = some f ↔
      (∃ p k, c = .insertChild p k n ∧ n < t.nodes.size ∧ t.nodes.size ≤ p ∧ f = .unknown p) ∨
      ∃ r, (c = .insertBefore r n ∨ c = .insertAfter r n) ∧ n < t.nodes.size ∧ r ≠ n ∧
        (t.nodes.size ≤ r ∧ f = .unknown r ∨
          r < t.nodes.size ∧ t.parentOf r = none ∧ f = .detached r)) ∧
    (∀ r p, t.parentOf r = some p → (∃ k, position (t.childrenOf p) r p = .ok k) ∧
      ∀ n, r ≠ n → ∃ k, position ((t.detached n).childrenOf p) r p = .ok k) ∧
    ∀ i f, t.previousSibling? i = .error f ↔ t.nodes.size ≤ i ∧ f = .unknown i := by
  have hf := h.forest
  refine ⟨fun c f t' => ?_, fun c n f => uprooted_iff, fun r p hp =>
    ⟨hf.exists_position hp, fun n hrn => (hf.detached n).exists_position ?_⟩,
    fun i f => hf.previousSibling?_eq_error⟩
  · rw [hf.perform_eq_error, Change.remains]
    refine and_congr_right fun hfault => ?_
    cases hn : c.uprooted? t with
    | none => rfl
    | some n =>
        have hlt : n < t.nodes.size := by
          rcases uprooted_iff.1 ⟨hn, hfault⟩ with ⟨_, _, _, hlt, _⟩ | ⟨_, _, hlt, _⟩
          · exact hlt
          · exact hlt
        simp only [run_detach hf, hlt, if_true, Option.elim_some]
        simp [eq_comm]
  · rw [parentOf_detached hf, if_neg hrn, hp]

/-- A child is moved next to a node that is not there, and below one. Only the first move leaves it
detached when it is refused; the second one looks at the new parent at once. -/
theorem refused_beside_and_below :
    let a : Node := { Node.element "a" with children := [1] }
    let b : Node := { Node.element "b" with id := 1, parent := some 0 }
    let t : Tree := { nodes := #[a, b] }
    Reachable t ∧
      (∃ t', (Change.insertBefore 7 1).perform.run t = .error (.fault (.unknown 7)) t' ∧
        (Edit.detach 1).run t = .ok () t' ∧ t' ≠ t) ∧
      (Change.appendChild 7 1).perform.run t = .error (.fault (.unknown 7)) t := by
  intro a b t
  have h : Reachable t := .done (c := .appendChild 0 1) reachable_pair rfl
  obtain ⟨hrefused, -⟩ := refused_of_reachable h
  refine ⟨h, ⟨_, (hrefused (.insertBefore 7 1) _ _).2 ⟨rfl, rfl⟩, rfl, by decide⟩, ?_⟩
  exact (hrefused (.appendChild 7 1) _ _).2 ⟨rfl, rfl⟩

end BookMarkup.Tree
