import BookMarkup.Proofs.Tree.Ancestry
import BookMarkup.Tree.Edit

/-!
What the changes of a store do to its views, and that they keep a forest a forest. A node is
detached from its parent, or moved below another one; a change of tag or attributes leaves the
links alone, and a new node has none.
-/

namespace BookMarkup

def Node.content (n : Node) : Node :=
  { n with parent := none, children := [] }

structure Node.Relabels (f : Node → Node) : Prop where
  id : ∀ n, (f n).id = n.id
  kind : ∀ n, (f n).kind = n.kind
  parent : ∀ n, (f n).parent = n.parent
  children : ∀ n, (f n).children = n.children
  content : ∀ n, (f n).content = f n.content

theorem Node.relabels_name (tag : String) : Relabels fun n => { n with name := tag } :=
  ⟨fun _ => rfl, fun _ => rfl, fun _ => rfl, fun _ => rfl, fun _ => rfl⟩

theorem Node.relabels_attributes (f : Attributes → Attributes) :
    Relabels fun n => { n with attributes := f n.attributes } :=
  ⟨fun _ => rfl, fun _ => rfl, fun _ => rfl, fun _ => rfl, fun _ => rfl⟩

theorem Node.tag?_eq_some_iff {n : Node} {tag : String} :
    n.tag? = some tag ↔ n.isElement = true ∧ n.name = tag := by
  rw [tag?]
  split
  · next he => simp [he]
  · next he => simp [he]

namespace Tree

def contentOf (t : Tree) (i : NodeId) : Option Node :=
  (t.get? i).map Node.content

theorem tag?_eq (t : Tree) (i : NodeId) : t.tag? i = (t.contentOf i).bind Node.tag? := by
  simp only [tag?, contentOf, Option.bind_map]
  rfl

theorem attribute?_eq (t : Tree) (i : NodeId) (name : String) :
    t.attribute? i name = (t.contentOf i).bind (·.attribute? name) := by
  simp only [attribute?, contentOf, Option.bind_map]
  rfl

theorem contentOf_isSome_iff {t : Tree} {i : NodeId} :
    (t.contentOf i).isSome ↔ i < t.nodes.size := by
  rw [contentOf, Option.isSome_map, get?_isSome_iff]

theorem parentOf_eq_none_of_size_le {t : Tree} {i : NodeId} (h : t.nodes.size ≤ i) :
    t.parentOf i = none := by
  simp [parentOf, get?_eq_none_iff.2 h]

theorem childrenOf_eq_nil_of_size_le {t : Tree} {i : NodeId} (h : t.nodes.size ≤ i) :
    t.childrenOf i = [] := by
  simp [childrenOf, get?_eq_none_iff.2 h]

theorem tag?_eq_none_of_size_le {t : Tree} {i : NodeId} (h : t.nodes.size ≤ i) :
    t.tag? i = none := by
  simp [tag?, get?_eq_none_iff.2 h]

/-! ### Labels -/

section Update

variable {f : Node → Node} (hf : Node.Relabels f) (t : Tree) (id : NodeId)

include hf

theorem parentOf_update (i : NodeId) : (t.update id f).parentOf i = t.parentOf i := by
  rw [parentOf, get?_update, parentOf]
  split
  · cases t.get? i <;> simp [hf.parent]
  · rfl

theorem childrenOf_update (i : NodeId) : (t.update id f).childrenOf i = t.childrenOf i := by
  rw [childrenOf, get?_update, childrenOf]
  split
  · cases t.get? i <;> simp [hf.children]
  · rfl

theorem contentOf_update (i : NodeId) :
    (t.update id f).contentOf i = if id = i then (t.contentOf i).map f else t.contentOf i := by
  rw [contentOf, get?_update, contentOf]
  split
  · cases t.get? i <;> simp [hf.content]
  · rfl

end Update

/-- Two stores with the same links below the same root are forests together. -/
theorem Forest.of_same_links {t t' : Tree} (hf : Forest t)
    (numbered : ∀ {i n}, t'.get? i = some n → n.id = i)
    (hp : ∀ i, t'.parentOf i = t.parentOf i) (hc : ∀ i, t'.childrenOf i = t.childrenOf i)
    (hr : ∀ {r}, t'.root = some r → ∃ n, t'.get? r = some n ∧ n.isElement) : Forest t' := by
  refine .of_views numbered (fun p c => ?_) (fun p => ?_) (fun i j h hw => ?_) hr
  · rw [hc, hp, hf.mem_childrenOf]
  · rw [hc]
    exact hf.nodup_childrenOf p
  · rw [hp] at h
    refine hf.not_within_parent h ?_
    clear h
    induction hw with
    | refl => exact .refl _
    | step hs _ ih => exact .step (hp _ ▸ hs) ih

theorem Forest.update {t : Tree} (ht : Forest t) {f : Node → Node} (hf : Node.Relabels f)
    (id : NodeId) : Forest (t.update id f) := by
  refine ht.of_same_links ?_ (parentOf_update hf t id) (childrenOf_update hf t id) ?_
  · intro i n h
    rw [get?_update] at h
    split at h
    · obtain ⟨m, hm, rfl⟩ := Option.map_eq_some_iff.1 h
      rw [hf.id, ht.numbered hm]
    · exact ht.numbered h
  · intro r hr
    obtain ⟨n, hn, he⟩ := ht.elementRoot (by simpa using hr)
    rw [get?_update, hn]
    split
    · exact ⟨f n, rfl, by rwa [Node.isElement, hf.kind]⟩
    · exact ⟨n, rfl, he⟩

/-! ### New nodes -/

@[simp] theorem parentOf_plant (t : Tree) (content : Node) (i : NodeId) :
    (t.plant content).parentOf i = t.parentOf i := by
  rw [parentOf, get?_plant]
  split
  · next h => simp [parentOf_eq_none_of_size_le (Nat.le_of_eq h.symm)]
  · rfl

@[simp] theorem childrenOf_plant (t : Tree) (content : Node) (i : NodeId) :
    (t.plant content).childrenOf i = t.childrenOf i := by
  rw [childrenOf, get?_plant]
  split
  · next h => simp [childrenOf_eq_nil_of_size_le (Nat.le_of_eq h.symm)]
  · rfl

theorem contentOf_plant (t : Tree) (content : Node) (i : NodeId) :
    (t.plant content).contentOf i =
      if i = t.nodes.size then some { content.content with id := t.nodes.size }
      else t.contentOf i := by
  rw [contentOf, get?_plant]
  split <;> rfl

theorem get?_plant_of_some {t : Tree} {i : NodeId} {n : Node} (content : Node)
    (h : t.get? i = some n) : (t.plant content).get? i = some n := by
  rw [get?_plant, if_neg (Nat.ne_of_lt (lt_size_of_get? h)), h]

theorem Forest.plant {t : Tree} (hf : Forest t) (content : Node) : Forest (t.plant content) := by
  refine hf.of_same_links ?_ (parentOf_plant t content) (childrenOf_plant t content) ?_
  · intro i n h
    rw [get?_plant] at h
    split at h
    · next hi =>
      rw [← Option.some.inj h, hi]
    · exact hf.numbered h
  · intro r hr
    obtain ⟨n, hn, he⟩ := hf.elementRoot (by simpa using hr)
    exact ⟨n, get?_plant_of_some content hn, he⟩

/-! ### Detaching -/

/-- The tree with a node taken from its parent. A root without parent is the root no longer. -/
def detached (t : Tree) (id : NodeId) : Tree :=
  match t.parentOf id with
  | none => if t.root = some id then { t with root := none } else t
  | some parent => t.unlink parent id

section Detached

variable {t : Tree} (hf : Forest t) (c : NodeId)

@[simp] theorem size_detached : (t.detached c).nodes.size = t.nodes.size := by
  rw [detached]
  split
  · split <;> rfl
  · simp

theorem root_detached :
    (t.detached c).root = if t.parentOf c = none ∧ t.root = some c then none else t.root := by
  rw [detached]
  split
  · next hp => split <;> simp_all
  · next parent hp => simp [hp]

include hf

theorem parentOf_detached (i : NodeId) :
    (t.detached c).parentOf i = if i = c then none else t.parentOf i := by
  rw [detached]
  split
  · next hp =>
    have hroot : (if t.root = some c then { t with root := none } else t).parentOf i =
        t.parentOf i := by split <;> rfl
    rw [hroot]
    split
    · next hi => rw [hi, hp]
    · rfl
  · next parent hp =>
    rw [parentOf, get?_unlink (hf.parent_ne hp)]
    split
    · cases t.get? i <;> rfl
    · split
      · rw [parentOf]
        cases t.get? i <;> rfl
      · rfl

theorem Forest.filter_childrenOf {c i : NodeId} (h : t.parentOf c ≠ some i) :
    (t.childrenOf i).filter (· ≠ c) = t.childrenOf i := by
  refine List.filter_eq_self.2 fun k hk => ?_
  rw [decide_eq_true_iff]
  rintro rfl
  exact h (hf.mem_childrenOf.1 hk)

theorem childrenOf_detached (i : NodeId) :
    (t.detached c).childrenOf i = (t.childrenOf i).filter (· ≠ c) := by
  rw [detached]
  split
  · next hp =>
    rw [hf.filter_childrenOf (by simp [hp])]
    split <;> rfl
  · next parent hp =>
    rw [childrenOf, get?_unlink (hf.parent_ne hp)]
    split
    · next hi =>
      rw [hf.filter_childrenOf (by rw [hp, hi]; simpa using hf.parent_ne hp), childrenOf]
      cases t.get? i <;> rfl
    · split
      · rw [childrenOf]
        cases t.get? i <;> rfl
      · next hi =>
        rw [hf.filter_childrenOf (by rw [hp]; simpa using Ne.symm hi), childrenOf]

theorem contentOf_detached (i : NodeId) : (t.detached c).contentOf i = t.contentOf i := by
  rw [detached]
  split
  · split <;> rfl
  · next parent hp =>
    rw [contentOf, get?_unlink (hf.parent_ne hp), contentOf]
    split
    · cases t.get? i <;> rfl
    · split
      · cases t.get? i <;> rfl
      · rfl

end Detached

/-- Links may change in a forest as long as the two views agree and no cycle comes about. -/
theorem Forest.relinked {t t' : Tree} (hf : Forest t)
    (hcontent : ∀ i, t'.contentOf i = t.contentOf i)
    (hroot : ∀ r, t'.root = some r → t.root = some r)
    (agree : ∀ p c, c ∈ t'.childrenOf p ↔ t'.parentOf c = some p)
    (nodup : ∀ p, (t'.childrenOf p).Nodup)
    (acyclic : ∀ i j, t'.parentOf i = some j → ¬ Within t' j i) : Forest t' := by
  have old {i : NodeId} {n : Node} (h : t'.get? i = some n) :
      ∃ m, t.get? i = some m ∧ m.content = n.content := by
    have hc := hcontent i
    rw [contentOf, h, contentOf, eq_comm] at hc
    exact Option.map_eq_some_iff.1 hc
  refine .of_views ?_ agree nodup acyclic ?_
  · intro i n h
    obtain ⟨m, hm, hc⟩ := old h
    rw [← hf.numbered hm]
    exact (congrArg Node.id hc).symm
  · intro r hr
    obtain ⟨m, hm, he⟩ := hf.elementRoot (hroot r hr)
    have hc := hcontent r
    rw [contentOf, contentOf, hm] at hc
    obtain ⟨n, hn, hmn⟩ := Option.map_eq_some_iff.1 hc
    have hk : n.content.kind = m.content.kind := by rw [hmn]
    exact ⟨n, hn, he ▸ congrArg (· == Node.Kind.element) hk⟩

theorem Forest.detached {t : Tree} (hf : Forest t) (c : NodeId) : Forest (t.detached c) := by
  have hpar := parentOf_detached hf c
  refine hf.relinked (contentOf_detached hf c) ?_ ?_ ?_ ?_
  · intro r hr
    rw [root_detached] at hr
    split at hr
    · simp at hr
    · exact hr
  · intro p k
    rw [childrenOf_detached hf, hpar, List.mem_filter, hf.mem_childrenOf]
    by_cases hk : k = c <;> simp [hk]
  · intro p
    rw [childrenOf_detached hf]
    exact (hf.nodup_childrenOf p).filter _
  · intro i j hj hw
    rw [hpar] at hj
    split at hj
    · simp at hj
    · by_cases hjc : Within t j c
      · rw [within_relink_of_within hf hpar (by simp) hjc] at hw
        rcases hw with hw | ⟨q, hq, _⟩
        · exact hf.not_within_parent hj hw.1
        · simp at hq
      · rw [within_relink_of_not_within hpar hjc] at hw
        exact hf.not_within_parent hj hw

/-! ### Moving -/

section Link

variable {t : Tree} {p c : NodeId} (hpc : p ≠ c) (k : Nat)

include hpc

theorem contentOf_link (i : NodeId) : (t.link p k c).contentOf i = t.contentOf i := by
  rw [contentOf, get?_link hpc, contentOf]
  split
  · cases t.get? i <;> rfl
  · split
    · cases t.get? i <;> rfl
    · rfl

theorem parentOf_link (hc : c < t.nodes.size) (i : NodeId) :
    (t.link p k c).parentOf i = if i = c then some p else t.parentOf i := by
  rw [parentOf, get?_link hpc]
  split
  · next hi =>
    obtain ⟨n, hn⟩ := Option.isSome_iff_exists.1 (get?_isSome_iff.2 (hi ▸ hc))
    rw [hn]
    rfl
  · split
    · rw [parentOf]
      cases t.get? i <;> rfl
    · rfl

theorem childrenOf_link (hp : p < t.nodes.size) (i : NodeId) :
    (t.link p k c).childrenOf i =
      if i = p then (t.childrenOf i).take k ++ c :: (t.childrenOf i).drop k
      else t.childrenOf i := by
  rw [childrenOf, get?_link hpc]
  split
  · next hi =>
    rw [if_neg fun hip => hpc (hip.symm.trans hi), childrenOf]
    cases t.get? i <;> rfl
  · split
    · next hi =>
      obtain ⟨n, hn⟩ := Option.isSome_iff_exists.1 (get?_isSome_iff.2 (hi ▸ hp))
      rw [childrenOf_of_get? hn, hn]
      rfl
    · rfl

end Link

/-- The tree with a node moved below `parent`, to `index` among the children without it. -/
def moved (t : Tree) (parent : NodeId) (index : Nat) (child : NodeId) : Tree :=
  (t.detached child).link parent index child

section Moved

variable {t : Tree} (hf : Forest t) {p c : NodeId} (hp : p < t.nodes.size) (hc : c < t.nodes.size)
  (hpc : ¬ Within t p c) (k : Nat)

@[simp] theorem size_moved (t : Tree) (p : NodeId) (k : Nat) (c : NodeId) :
    (t.moved p k c).nodes.size = t.nodes.size := by
  simp [moved]

theorem root_moved (t : Tree) (p : NodeId) (k : Nat) (c : NodeId) :
    (t.moved p k c).root = if t.parentOf c = none ∧ t.root = some c then none else t.root := by
  rw [moved, root_link, root_detached]

theorem ne_of_not_within {t : Tree} {i j : NodeId} (h : ¬ Within t i j) : i ≠ j := by
  rintro rfl
  exact h (.refl i)

include hf hpc

theorem contentOf_moved (i : NodeId) : (t.moved p k c).contentOf i = t.contentOf i := by
  rw [moved, contentOf_link (ne_of_not_within hpc), contentOf_detached hf]

include hc in
theorem parentOf_moved (i : NodeId) :
    (t.moved p k c).parentOf i = if i = c then some p else t.parentOf i := by
  rw [moved, parentOf_link (ne_of_not_within hpc) k (by simpa using hc), parentOf_detached hf]
  split <;> rfl

include hp in
theorem childrenOf_moved (i : NodeId) :
    (t.moved p k c).childrenOf i =
      if i = p then
        ((t.childrenOf i).filter (· ≠ c)).take k ++ c :: ((t.childrenOf i).filter (· ≠ c)).drop k
      else (t.childrenOf i).filter (· ≠ c) := by
  rw [moved, childrenOf_link (ne_of_not_within hpc) k (by simpa using hp), childrenOf_detached hf]

include hp in
theorem childrenOf_moved_last (i : NodeId) :
    (t.moved p (t.childrenOf p).length c).childrenOf i =
      (t.childrenOf i).filter (· ≠ c) ++ if i = p then [c] else [] := by
  rw [childrenOf_moved hf hp hpc]
  split
  · next hi =>
    have hle : ((t.childrenOf p).filter (· ≠ c)).length ≤ (t.childrenOf p).length :=
      List.length_filter_le _ _
    rw [hi, List.take_of_length_le hle, List.drop_eq_nil_of_le hle]
  · rw [List.append_nil]

include hp hc in
theorem Forest.moved : Forest (t.moved p k c) := by
  have hpar := parentOf_moved hf hc hpc k
  have hch := childrenOf_moved hf hp hpc k
  have hperm : ((t.childrenOf p).filter (· ≠ c)).take k ++
      c :: ((t.childrenOf p).filter (· ≠ c)).drop k |>.Perm
        (c :: (t.childrenOf p).filter (· ≠ c)) := by
    refine List.perm_middle.trans ?_
    rw [List.take_append_drop]
  refine hf.relinked (contentOf_moved hf hpc k) ?_ ?_ ?_ ?_
  · intro r hr
    rw [root_moved] at hr
    split at hr
    · simp at hr
    · exact hr
  · intro q j
    rw [hch, hpar]
    by_cases hq : q = p
    · subst hq
      simp only [if_true]
      rw [hperm.mem_iff, List.mem_cons, List.mem_filter, hf.mem_childrenOf]
      by_cases hj : j = c <;> simp [hj]
    · simp only [hq, if_false]
      rw [List.mem_filter, hf.mem_childrenOf]
      by_cases hj : j = c
      · simp [hj, Ne.symm hq]
      · simp [hj]
  · intro q
    rw [hch]
    have hd : ((t.childrenOf q).filter (· ≠ c)).Nodup := (hf.nodup_childrenOf q).filter _
    by_cases hq : q = p
    · subst hq
      simp only [if_true]
      rw [hperm.nodup_iff, List.nodup_cons]
      exact ⟨by simp, hd⟩
    · simpa only [hq, if_false] using hd
  · intro i j hj hw
    have hnew : ∀ q, some p = some q → ¬ Within t q c := by
      rintro q ⟨rfl⟩
      exact hpc
    rw [hpar] at hj
    split at hj
    · next hi =>
      rw [Option.some.injEq] at hj
      subst hj hi
      rw [within_relink_of_not_within hpar hpc] at hw
      exact hpc hw
    · by_cases hjc : Within t j c
      · rw [within_relink_of_within hf hpar hnew hjc] at hw
        rcases hw with hw | ⟨q, hq, hqi⟩
        · exact hf.not_within_parent hj hw.1
        · exact hnew q hq (hqi.trans (.step hj hjc))
      · rw [within_relink_of_not_within hpar hjc] at hw
        exact hf.not_within_parent hj hw

end Moved

end Tree

end BookMarkup
