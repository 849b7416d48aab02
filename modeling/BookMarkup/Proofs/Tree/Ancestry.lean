import BookMarkup.Tree.Forest
import Mathlib.Data.List.Perm.Subperm

/-!
Ancestry in a store of nodes, read off the parent links alone. Two views of a store carry the
arguments of this folder: the parent of a node and its list of children. Main statements: the
bounded climb of `isAncestor` finds exactly the nodes above, and what moving one link does to the
question which nodes lie below which.
-/

namespace BookMarkup.Tree

def parentOf (t : Tree) (i : NodeId) : Option NodeId :=
  (t.get? i).bind Node.parent

def childrenOf (t : Tree) (i : NodeId) : List NodeId :=
  ((t.get? i).map Node.children).getD []

theorem parentOf_of_get? {t : Tree} {i : NodeId} {n : Node} (hn : t.get? i = some n) :
    t.parentOf i = n.parent := by
  simp [parentOf, hn]

theorem childrenOf_of_get? {t : Tree} {i : NodeId} {n : Node} (hn : t.get? i = some n) :
    t.childrenOf i = n.children := by
  simp [childrenOf, hn]

theorem parentOf_eq_some {t : Tree} {i j : NodeId} :
    t.parentOf i = some j ↔ ∃ n, t.get? i = some n ∧ n.parent = some j :=
  Option.bind_eq_some_iff

theorem lt_size_of_parentOf {t : Tree} {i j : NodeId} (h : t.parentOf i = some j) :
    i < t.nodes.size := by
  obtain ⟨n, hn, _⟩ := parentOf_eq_some.1 h
  exact lt_size_of_get? hn

theorem lt_size_of_mem_childrenOf {t : Tree} {p c : NodeId} (h : c ∈ t.childrenOf p) :
    p < t.nodes.size := by
  rw [← get?_isSome_iff]
  cases hn : t.get? p with
  | none => simp [childrenOf, hn] at h
  | some n => rfl

theorem not_mem_of_nodup {x : NodeId} {before after : List NodeId}
    (hd : (before ++ x :: after).Nodup) : x ∉ before ∧ x ∉ after := by
  have hx := (List.nodup_cons.1 (List.perm_middle.nodup_iff.1 hd)).1
  rwa [List.mem_append, not_or] at hx

/-- `Within t i j`: the node `i` is `j` itself or lies below it. -/
inductive Within (t : Tree) : NodeId → NodeId → Prop
  | refl (i : NodeId) : Within t i i
  | step {i j k : NodeId} (hp : t.parentOf i = some j) (h : Within t j k) : Within t i k

theorem below_iff {t : Tree} {i k : NodeId} :
    Below t i k ↔ ∃ j, t.parentOf i = some j ∧ Within t j k := by
  constructor
  · intro h
    induction h with
    | child hn hp => exact ⟨_, parentOf_eq_some.2 ⟨_, hn, hp⟩, .refl _⟩
    | step hn hp _ ih =>
        obtain ⟨j, hj, hw⟩ := ih
        exact ⟨_, parentOf_eq_some.2 ⟨_, hn, hp⟩, .step hj hw⟩
  · rintro ⟨j, hj, hw⟩
    induction hw generalizing i with
    | refl j =>
        obtain ⟨n, hn, hp⟩ := parentOf_eq_some.1 hj
        exact .child hn hp
    | step hp _ ih =>
        obtain ⟨n, hn, hp'⟩ := parentOf_eq_some.1 hj
        exact .step hn hp' (ih hp)

theorem within_iff {t : Tree} {i k : NodeId} : Within t i k ↔ i = k ∨ Below t i k := by
  constructor
  · intro h
    cases h with
    | refl => exact .inl rfl
    | step hp h => exact .inr (below_iff.2 ⟨_, hp, h⟩)
  · rintro (rfl | h)
    · exact .refl _
    · obtain ⟨j, hj, hw⟩ := below_iff.1 h
      exact .step hj hw

theorem Within.trans {t : Tree} {i j k : NodeId} (h : Within t i j) (h' : Within t j k) :
    Within t i k := by
  induction h with
  | refl => exact h'
  | step hp _ ih => exact .step hp (ih h')

theorem Below.within {t : Tree} {i j : NodeId} (h : Below t i j) : Within t i j :=
  within_iff.2 (.inr h)

theorem below_of_within_parent {t : Tree} {i j k : NodeId} (h : Within t i j)
    (hp : t.parentOf j = some k) : Below t i k := by
  induction h with
  | refl j => exact below_iff.2 ⟨k, hp, .refl k⟩
  | step hp' h ih => exact below_iff.2 ⟨_, hp', (ih hp).within⟩

theorem Within.parent {t : Tree} {i j k : NodeId} (h : Within t i j)
    (hp : t.parentOf j = some k) : Within t i k :=
  (below_of_within_parent h hp).within

theorem Within.eq_of_parentOf {t : Tree} {i j : NodeId} (h : Within t i j)
    (hp : t.parentOf i = none) : i = j := by
  cases h with
  | refl => rfl
  | step hp' _ => simp [hp] at hp'

/-- Within two nodes at once lies only what is below both, one of them being below the other. -/
theorem Within.total {t : Tree} {i j k : NodeId} (hj : Within t i j) (hk : Within t i k) :
    Within t j k ∨ Within t k j := by
  induction hj with
  | refl => exact .inl hk
  | step hp h ih =>
      cases hk with
      | refl => exact .inr (.step hp h)
      | step hp' hk =>
          rw [hp, Option.some.injEq] at hp'
          exact ih (hp' ▸ hk)

/-! ### Forests by their two views -/

namespace Forest

variable {t : Tree}

theorem mem_childrenOf (hf : Forest t) {p c : NodeId} :
    c ∈ t.childrenOf p ↔ t.parentOf c = some p := by
  constructor
  · intro h
    obtain ⟨n, hn⟩ := Option.isSome_iff_exists.1
      (get?_isSome_iff.2 (lt_size_of_mem_childrenOf h))
    rw [childrenOf_of_get? hn] at h
    exact parentOf_eq_some.2 ((hf.linked hn).1 h)
  · intro h
    obtain ⟨m, hm, hp⟩ := parentOf_eq_some.1 h
    obtain ⟨n, hn⟩ := hf.rooted hm hp
    rw [childrenOf_of_get? hn]
    exact (hf.linked hn).2 ⟨m, hm, hp⟩

theorem nodup_childrenOf (hf : Forest t) (p : NodeId) : (t.childrenOf p).Nodup := by
  cases hn : t.get? p with
  | none => simp [childrenOf, hn]
  | some n =>
      rw [childrenOf_of_get? hn]
      exact hf.nodup hn

theorem of_childrenOf_eq (hf : Forest t) {p c : NodeId} {before after : List NodeId}
    (hc : t.childrenOf p = before ++ c :: after) :
    t.parentOf c = some p ∧ c ∉ before ∧ c ∉ after :=
  ⟨hf.mem_childrenOf.1 (by simp [hc]), not_mem_of_nodup (hc ▸ hf.nodup_childrenOf p)⟩

theorem parent_lt (hf : Forest t) {i j : NodeId} (h : t.parentOf i = some j) :
    j < t.nodes.size :=
  lt_size_of_mem_childrenOf (hf.mem_childrenOf.2 h)

/-- A store is a forest if its two views agree. -/
theorem of_views (numbered : ∀ {i n}, t.get? i = some n → n.id = i)
    (agree : ∀ p c, c ∈ t.childrenOf p ↔ t.parentOf c = some p)
    (nodup : ∀ p, (t.childrenOf p).Nodup)
    (acyclic : ∀ i j, t.parentOf i = some j → ¬ Within t j i)
    (elementRoot : ∀ {r}, t.root = some r → ∃ n, t.get? r = some n ∧ n.isElement) :
    Forest t where
  numbered := numbered
  linked {p n c} hn := by
    rw [← childrenOf_of_get? hn, agree, parentOf_eq_some]
  rooted {c m p} hm hp := by
    have hc := (agree p c).2 (parentOf_eq_some.2 ⟨m, hm, hp⟩)
    exact Option.isSome_iff_exists.1 (get?_isSome_iff.2 (lt_size_of_mem_childrenOf hc))
  nodup {p n} hn := by
    rw [← childrenOf_of_get? hn]
    exact nodup p
  acyclic i h := by
    obtain ⟨j, hj, hw⟩ := below_iff.1 h
    exact acyclic i j hj hw
  elementRoot := elementRoot

theorem not_within_parent (hf : Forest t) {i j : NodeId} (h : t.parentOf i = some j) :
    ¬ Within t j i :=
  fun hw => hf.acyclic i (below_iff.2 ⟨j, h, hw⟩)

theorem parent_ne (hf : Forest t) {i j : NodeId} (h : t.parentOf i = some j) : j ≠ i := by
  rintro rfl
  exact hf.not_within_parent h (.refl j)

end Forest

theorem Forest.eq_of_within {t : Tree} (hf : Forest t) {i p : NodeId} (hp : t.childrenOf p = [])
    (h : Within t i p) : i = p := by
  induction h with
  | refl => rfl
  | @step i j p hs _ ih =>
      obtain rfl := ih hp
      have hmem := hf.mem_childrenOf.2 hs
      simp [hp] at hmem

/-! ### Climbing -/

/-- The node that is `steps` parents above a node, if the chain of parents is that long. -/
def ascend (t : Tree) : (steps : Nat) → NodeId → Option NodeId
  | 0, i => some i
  | steps + 1, i => (t.parentOf i).bind (t.ascend steps)

theorem ascend_succ (t : Tree) (steps : Nat) (i : NodeId) :
    t.ascend (steps + 1) i = (t.ascend steps i).bind t.parentOf := by
  induction steps generalizing i with
  | zero => cases h : t.parentOf i <;> simp [ascend, h]
  | succ steps ih =>
      rw [ascend, ascend, Option.bind_assoc]
      exact Option.bind_congr fun j _ => ih j

theorem within_iff_ascend {t : Tree} {i a : NodeId} :
    Within t i a ↔ ∃ steps, t.ascend steps i = some a := by
  constructor
  · intro h
    induction h with
    | refl i => exact ⟨0, rfl⟩
    | step hp _ ih =>
        obtain ⟨steps, hs⟩ := ih
        exact ⟨steps + 1, by simp [ascend, hp, hs]⟩
  · rintro ⟨steps, hs⟩
    induction steps generalizing i with
    | zero =>
        rw [ascend, Option.some.injEq] at hs
        exact hs ▸ .refl i
    | succ steps ih =>
        obtain ⟨j, hp, hs⟩ := Option.bind_eq_some_iff.1 hs
        exact .step hp (ih hs)

theorem climbs_iff {t : Tree} {a i : NodeId} {steps : Nat} :
    t.climbs a steps i = true ↔ ∃ k ≤ steps, t.ascend k i = some a := by
  induction steps generalizing i with
  | zero => simp [climbs, ascend]
  | succ steps ih =>
      simp only [climbs, Bool.or_eq_true, beq_iff_eq]
      constructor
      · rintro (rfl | h)
        · exact ⟨0, Nat.zero_le _, rfl⟩
        · split at h
          · next j hp =>
            obtain ⟨k, hk, ha⟩ := ih.1 h
            have hp : t.parentOf i = some j := hp
            exact ⟨k + 1, Nat.succ_le_succ hk, by simp [ascend, hp, ha]⟩
          · simp at h
      · rintro ⟨k, hk, ha⟩
        cases k with
        | zero => exact .inl (Option.some.inj ha)
        | succ k =>
            obtain ⟨j, hp, ha⟩ := Option.bind_eq_some_iff.1 ha
            have hp : (t.get? i).bind Node.parent = some j := hp
            rw [hp]
            exact .inr (ih.2 ⟨k, Nat.le_of_succ_le_succ hk, ha⟩)

/-- The nodes passed on the way up to another one are known, they are below it, and no two of them
are the same. -/
theorem Forest.exists_passed {t : Tree} (hf : Forest t) {steps : Nat} {i a : NodeId}
    (h : t.ascend steps i = some a) :
    ∃ passed : List NodeId, passed.length = steps ∧ passed.Nodup ∧
      ∀ j ∈ passed, Within t i j ∧ ∃ k, t.parentOf j = some k ∧ Within t k a := by
  induction steps generalizing i with
  | zero => exact ⟨[], rfl, List.nodup_nil, by simp⟩
  | succ steps ih =>
      obtain ⟨j, hp, hs⟩ := Option.bind_eq_some_iff.1 h
      obtain ⟨passed, hl, hd, hk⟩ := ih hs
      refine ⟨i :: passed, by simp [hl], List.nodup_cons.2 ⟨fun hi => ?_, hd⟩, ?_⟩
      · -- A node that is passed again would be above its own parent and below it.
        exact hf.not_within_parent hp (hk i hi).1
      · intro k hk'
        rcases List.mem_cons.1 hk' with rfl | hk'
        · exact ⟨.refl k, j, hp, within_iff_ascend.2 ⟨steps, hs⟩⟩
        · exact ⟨.step hp (hk k hk').1, (hk k hk').2⟩

theorem Forest.steps_le {t : Tree} (hf : Forest t) {steps : Nat} {i a : NodeId}
    (h : t.ascend steps i = some a) : steps ≤ t.nodes.size := by
  obtain ⟨passed, hl, hd, hk⟩ := hf.exists_passed h
  have hsub : passed ⊆ List.range t.nodes.size := fun j hj => by
    obtain ⟨_, k, hp, _⟩ := hk j hj
    exact List.mem_range.2 (lt_size_of_parentOf hp)
  simpa [hl] using (List.Nodup.subperm hd hsub).length_le

/-- There are fewer links on the way up to a known node than there are nodes. -/
theorem Forest.steps_lt {t : Tree} (hf : Forest t) {steps : Nat} {i a : NodeId}
    (ha : a < t.nodes.size) (h : t.ascend steps i = some a) : steps < t.nodes.size := by
  obtain ⟨passed, hl, hd, hk⟩ := hf.exists_passed h
  have hnot : a ∉ passed := fun hm => by
    obtain ⟨_, k, hp, hw⟩ := hk a hm
    exact hf.not_within_parent hp hw
  have hsub : a :: passed ⊆ List.range t.nodes.size := fun j hj => by
    rcases List.mem_cons.1 hj with rfl | hj
    · exact List.mem_range.2 ha
    · obtain ⟨_, k, hp, _⟩ := hk j hj
      exact List.mem_range.2 (lt_size_of_parentOf hp)
  have hle := (List.Nodup.subperm (List.nodup_cons.2 ⟨hnot, hd⟩) hsub).length_le
  rwa [List.length_cons, hl, List.length_range] at hle

/-- In a forest every chain of parents ends. -/
theorem Forest.ascend_eq_none {t : Tree} (hf : Forest t) (i : NodeId) :
    t.ascend (t.nodes.size + 1) i = none := by
  cases h : t.ascend (t.nodes.size + 1) i with
  | none => rfl
  | some a => exact absurd (hf.steps_le h) (by simp)

/-- In a forest the bounded climb tells exactly whether a node is `a` or lies below it. -/
theorem Forest.isAncestor_iff {t : Tree} (hf : Forest t) {a i : NodeId} :
    t.isAncestor a i = true ↔ Within t i a := by
  rw [isAncestor, climbs_iff, within_iff_ascend]
  constructor
  · rintro ⟨k, _, h⟩
    exact ⟨k, h⟩
  · rintro ⟨k, h⟩
    exact ⟨k, hf.steps_le h, h⟩

/-! ### Moving one link -/

section Relink

variable {t t' : Tree} {c : NodeId} {p : Option NodeId}

/-- A node that does not lie within `c` is not touched by a new parent of `c`. -/
theorem within_relink_of_not_within
    (hpar : ∀ i, t'.parentOf i = if i = c then p else t.parentOf i) {i k : NodeId}
    (hi : ¬ Within t i c) : Within t' i k ↔ Within t i k := by
  constructor
  · intro h
    induction h with
    | refl => exact .refl _
    | @step i j k hp _ ih =>
        have hic : i ≠ c := fun hic => hi (hic ▸ .refl i)
        rw [hpar, if_neg hic] at hp
        exact .step hp (ih fun hj => hi (.step hp hj))
  · intro h
    induction h with
    | refl => exact .refl _
    | @step i j k hp _ ih =>
        have hic : i ≠ c := fun hic => hi (hic ▸ .refl i)
        refine .step (j := j) ?_ (ih fun hj => hi (.step hp hj))
        rw [hpar, if_neg hic, hp]

/-- A node within `c` keeps what is above it up to `c`, and gets above it what is above the new parent
of `c`. -/
theorem within_relink_of_within (hf : Forest t)
    (hpar : ∀ i, t'.parentOf i = if i = c then p else t.parentOf i)
    (hp : ∀ q, p = some q → ¬ Within t q c) {i k : NodeId} (hi : Within t i c) :
    Within t' i k ↔ Within t i k ∧ Within t k c ∨ ∃ q, p = some q ∧ Within t q k := by
  constructor
  · intro h
    induction h with
    | refl i => exact .inl ⟨.refl i, hi⟩
    | @step i j k hs hw ih =>
        rw [hpar] at hs
        split at hs
        · -- From the new parent on nothing has changed, as it is not within `c`.
          exact .inr ⟨j, hs, (within_relink_of_not_within hpar (hp j hs)).1 hw⟩
        · next hic =>
          have hj : Within t j c := by
            cases hi with
            | refl => exact absurd rfl hic
            | step hs' hi =>
                rw [hs, Option.some.injEq] at hs'
                exact hs' ▸ hi
          exact (ih hj).imp_left fun h => ⟨.step hs h.1, h.2⟩
  · have up {k : NodeId} (h : Within t i k) (hk : Within t k c) : Within t' i k := by
      clear hi
      induction h with
      | refl i => exact .refl i
      | @step i j k hs hw ih =>
          have hic : i ≠ c := by
            rintro rfl
            exact hf.not_within_parent hs (hw.trans hk)
          refine .step (j := j) ?_ (ih hk)
          rw [hpar, if_neg hic, hs]
    rintro (⟨h, hk⟩ | ⟨q, hq, hk⟩)
    · exact up h hk
    · refine (up hi (.refl c)).trans (.step (j := q) ?_ ?_)
      · rw [hpar, if_pos rfl, hq]
      · exact (within_relink_of_not_within hpar (hp q hq)).2 hk

end Relink

end BookMarkup.Tree
