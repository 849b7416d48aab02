import BookMarkup.Proofs.Tree.Laid

/-!
Trees of which only the first nodes are there yet. In a tree whose nodes are numbered in document
order, the next node is adopted by its parent, and the first one is the root; in this way the whole
tree comes about.
-/

namespace BookMarkup.Tree

def begun (t : Tree) (k : Nat) : Tree where
  nodes := (t.nodes.take k).map fun n => { n with children := n.children.filter (· < k) }
  root := if k = 0 then none else t.root

section Begun

variable (t : Tree) (k : Nat)

theorem get?_begun (i : NodeId) :
    (t.begun k).get? i = if i < k then
      (t.get? i).map fun n => { n with children := n.children.filter (· < k) } else none := by
  rw [get?, begun, Array.getElem?_map, Array.take_eq_extract, Array.getElem?_extract, get?]
  simp only [Nat.sub_zero, Nat.zero_add, Nat.lt_min]
  by_cases hik : i < k
  · by_cases hi : i < t.nodes.size
    · simp [hik, hi]
    · simp [hi]
  · simp [hik]

theorem size_begun : (t.begun k).nodes.size = min k t.nodes.size := by
  simp [begun]

theorem root_begun : (t.begun k).root = if k = 0 then none else t.root := rfl

variable {t k}

theorem get?_begun_of_lt {i : NodeId} (hi : i < k) {n : Node} (hn : t.get? i = some n) :
    (t.begun k).get? i = some { n with children := n.children.filter (· < k) } := by
  rw [get?_begun, if_pos hi, hn]
  rfl

theorem childrenOf_begun {i : NodeId} (hi : i < k) :
    (t.begun k).childrenOf i = (t.childrenOf i).filter (· < k) := by
  rw [childrenOf, get?_begun, if_pos hi, childrenOf]
  cases t.get? i <;> rfl

theorem contentOf_begun {i : NodeId} (hi : i < k) :
    (t.begun k).contentOf i = t.contentOf i := by
  rw [contentOf, get?_begun, if_pos hi, contentOf]
  cases t.get? i <;> rfl

theorem begun_zero : t.begun 0 = {} := by
  refine ext_get? rfl fun i => ?_
  rw [get?_begun, if_neg (Nat.not_lt_zero i)]
  rfl

end Begun

theorem Forest.begun_size {t : Tree} (hf : Forest t) (hs : t.nodes.size ≠ 0) :
    t.begun t.nodes.size = t := by
  refine ext_get? (if_neg hs) fun i => ?_
  rw [get?_begun]
  split
  · next hi =>
    obtain ⟨n, hn⟩ := Option.isSome_iff_exists.1 (get?_isSome_iff.2 hi)
    have hall : n.children.filter (· < t.nodes.size) = n.children :=
      List.filter_eq_self.2 fun c hc => by
        simpa using lt_size_of_parentOf (hf.mem_childrenOf.1 (childrenOf_of_get? hn ▸ hc))
    rw [hn, Option.map_some, hall]
  · next hi => exact (get?_eq_none_iff.2 (Nat.le_of_not_lt hi)).symm

theorem filter_lt_succ {cs : List Nat} (h : cs.Pairwise (· < ·)) {k : Nat} (hk : k ∈ cs) :
    cs.filter (· < k + 1) = cs.filter (· < k) ++ [k] := by
  obtain ⟨before, after, rfl⟩ := List.append_of_mem hk
  obtain ⟨_, hafter, hacross⟩ := List.pairwise_append.1 h
  have hlt : ∀ c ∈ before, c < k := fun c hc => hacross c hc k List.mem_cons_self
  have hgt : ∀ c ∈ after, k < c := (List.pairwise_cons.1 hafter).1
  have hbefore : before.filter (· < k + 1) = before.filter (· < k) :=
    List.filter_congr fun c hc => by simp [hlt c hc, Nat.lt_succ_of_lt (hlt c hc)]
  have hnone (m : Nat) (hm : m ≤ k + 1) : after.filter (· < m) = [] :=
    List.filter_eq_nil_iff.2 fun c hc => by
      have := hgt c hc
      simp only [decide_eq_true_eq]
      omega
  rw [List.filter_append, List.filter_append, hbefore, List.filter_cons, List.filter_cons,
    hnone _ (Nat.le_refl _), hnone _ (Nat.le_succ k)]
  simp

section Next

variable {t : Tree} (hf : Forest t) (hlaid : Laid t [0] 0 t.nodes.size)

include hlaid

theorem Laid.pairwise_childrenOf (p : NodeId) : (t.childrenOf p).Pairwise (· < ·) := by
  by_cases hp : p < t.nodes.size
  · obtain ⟨_, inner⟩ := hlaid.inner (Nat.zero_le p) hp
    exact inner.pairwise
  · rw [childrenOf_eq_nil_of_size_le (Nat.le_of_not_lt hp)]
    exact .nil

theorem Laid.lt_of_mem_childrenOf {p c : NodeId} (hc : c ∈ t.childrenOf p) : p < c := by
  have hp := lt_size_of_mem_childrenOf hc
  obtain ⟨_, inner⟩ := hlaid.inner (Nat.zero_le p) hp
  exact (inner.bounds hc).1

/-- The last node that has been read has no children yet. -/
theorem get?_begun_last {k : NodeId} {content : Node}
    (hc : t.contentOf k = some { content.content with id := k }) :
    (t.begun (k + 1)).get? k =
      some { content with id := k, parent := t.parentOf k, children := [] } := by
  have hk : k < t.nodes.size := by
    rw [← contentOf_isSome_iff, hc]
    rfl
  obtain ⟨n, hn⟩ := Option.isSome_iff_exists.1 (get?_isSome_iff.2 hk)
  have hcontent : n.content = { content.content with id := k } := by
    rw [contentOf, hn] at hc
    exact Option.some.inj hc
  have hnil : n.children.filter (· < k + 1) = [] := by
    rw [← childrenOf_of_get? hn]
    refine List.filter_eq_nil_iff.2 fun c hm => ?_
    have hlt : k < c := hlaid.lt_of_mem_childrenOf hm
    simp only [decide_eq_true_eq, Nat.not_lt]
    exact hlt
  have hnode : n = { n.content with parent := n.parent, children := n.children } := rfl
  rw [get?_begun_of_lt (Nat.lt_succ_self k) hn, hnil, parentOf_of_get? hn, hnode, hcontent]
  rfl

theorem founded_begun (hr : t.root = some 0) (hp : t.parentOf 0 = none) {content : Node}
    (hc : t.contentOf 0 = some { content.content with id := 0 }) :
    (t.begun 0).founded content = t.begun 1 := by
  have hroot : ((t.begun 0).founded content).root = (t.begun 1).root := by
    rw [root_founded, size_begun, Nat.zero_min, root_begun, if_neg Nat.one_ne_zero, hr]
  refine ext_get? hroot fun i => ?_
  have hplant : ((t.begun 0).founded content).get? i = ((t.begun 0).plant content).get? i := rfl
  rw [hplant, get?_plant, size_begun, Nat.zero_min]
  by_cases hi : i = 0
  · rw [if_pos hi, hi, get?_begun_last hlaid hc, hp]
  · rw [if_neg hi, get?_begun, get?_begun, if_neg (Nat.not_lt_zero i),
      if_neg fun h => hi (Nat.lt_one_iff.1 h)]

include hf

theorem adopt_begun {k p : NodeId} (hp : t.parentOf k = some p) {content : Node}
    (hc : t.contentOf k = some { content.content with id := k }) :
    (t.begun k).adopt p content = t.begun (k + 1) := by
  have hmem := hf.mem_childrenOf.2 hp
  have hpk := hlaid.lt_of_mem_childrenOf hmem
  have hk := lt_size_of_parentOf hp
  have hsize : (t.begun k).nodes.size = k :=
    (size_begun t k).trans (Nat.min_eq_left (Nat.le_of_lt hk))
  have hroot : ((t.begun k).adopt p content).root = (t.begun (k + 1)).root := by
    rw [root_adopt, root_begun, root_begun, if_neg (Nat.ne_of_gt (Nat.zero_lt_of_lt hpk)),
      if_neg (Nat.succ_ne_zero k)]
  refine ext_get? hroot fun i => ?_
  rw [get?_adopt (hsize.symm ▸ hpk), hsize]
  by_cases hik : i = k
  · rw [if_pos hik, hik, get?_begun_last hlaid hc, hp]
  rw [if_neg hik]
  by_cases hi : i < k
  · obtain ⟨n, hn⟩ := Option.isSome_iff_exists.1 (get?_isSome_iff.2 (Nat.lt_trans hi hk))
    rw [get?_begun_of_lt hi hn, get?_begun_of_lt (Nat.lt_succ_of_lt hi) hn]
    -- Only the parent of the new node gets a child.
    by_cases hip : i = p
    · have hsplit := filter_lt_succ (hlaid.pairwise_childrenOf p) hmem
      rw [← hip, childrenOf_of_get? hn] at hsplit
      rw [if_pos hip, hsplit]
      rfl
    · have hsame : n.children.filter (· < k + 1) = n.children.filter (· < k) :=
        List.filter_congr fun c hm => by
          have hck : c ≠ k := by
            rintro rfl
            rw [← childrenOf_of_get? hn, hf.mem_childrenOf, hp, Option.some.injEq] at hm
            exact hip hm.symm
          exact decide_eq_decide.2
            ⟨fun h => Nat.lt_of_le_of_ne (Nat.le_of_lt_succ h) hck, Nat.lt_succ_of_lt⟩
      rw [if_neg hip, hsame]
  · have hi' : ¬ i < k + 1 := fun h =>
      hik (Nat.le_antisymm (Nat.le_of_lt_succ h) (Nat.le_of_not_lt hi))
    rw [get?_begun, get?_begun, if_neg hi, if_neg hi']
    split <;> rfl

end Next

end BookMarkup.Tree
