import BookMarkup.Proofs.Tree.Proper

/-!
New nodes with a place in the tree: planted at an index among the children of an element, or adopted
as its last child. Nothing else changes, and a proper tree stays proper.
-/

namespace BookMarkup.Tree

theorem run_create (n : Node) (t : Tree) :
    (Edit.create n).run t = .ok t.nodes.size (t.plant n) := rfl

def planted (t : Tree) (parent : NodeId) (index : Nat) (content : Node) : Tree :=
  (t.plant content).moved parent index t.nodes.size

/-- The number of the node that is made for `x`, where the nodes made are in the order of a list. -/
def numberFor (t : Tree) (ids : List NodeId) (x : NodeId) : NodeId :=
  t.nodes.size + ids.idxOf x

section Number

variable (t : Tree) {ids : List NodeId} {x : NodeId}

theorem numberFor_append_of_mem (hx : x ∈ ids) (y : NodeId) :
    t.numberFor (ids ++ [y]) x = t.numberFor ids x := by
  rw [numberFor, numberFor, List.idxOf_append_of_mem hx]

theorem numberFor_append_self (hx : x ∉ ids) :
    t.numberFor (ids ++ [x]) x = t.nodes.size + ids.length := by
  rw [numberFor, List.idxOf_append_of_notMem hx, List.idxOf_cons_self, Nat.add_zero]

@[simp] theorem numberFor_singleton (x : NodeId) : t.numberFor [x] x = t.nodes.size :=
  numberFor_append_self t List.not_mem_nil

theorem numberFor_lt (hx : x ∈ ids) : t.numberFor ids x < t.nodes.size + ids.length :=
  Nat.add_lt_add_left (List.idxOf_lt_length_of_mem hx) _

theorem exists_numberFor (hd : ids.Nodup) {i : NodeId} (hi : t.nodes.size ≤ i)
    (hlt : i < t.nodes.size + ids.length) : ∃ y ∈ ids, t.numberFor ids y = i := by
  obtain ⟨k, rfl⟩ := Nat.exists_eq_add_of_le hi
  have hk : k < ids.length := Nat.lt_of_add_lt_add_left hlt
  exact ⟨ids[k], List.getElem_mem hk, by rw [numberFor, hd.idxOf_getElem]⟩

end Number

section Planted

variable {t : Tree} (h : Proper t)

include h

theorem not_within_new {p : NodeId} (hp : p < t.nodes.size) (content : Node) :
    ¬ Within (t.plant content) p t.nodes.size := by
  intro hw
  generalize hn : t.nodes.size = new at hw
  induction hw with
  | refl => exact Nat.lt_irrefl _ (hn ▸ hp)
  | step hs _ ih =>
      rw [parentOf_plant] at hs
      exact ih (h.forest.parent_lt hs) hn

theorem filter_childrenOf_plant (content : Node) (i : NodeId) :
    ((t.plant content).childrenOf i).filter (· ≠ t.nodes.size) = t.childrenOf i := by
  rw [childrenOf_plant]
  refine List.filter_eq_self.2 fun c hc => ?_
  have := lt_size_of_parentOf (h.forest.mem_childrenOf.1 hc)
  simpa using Nat.ne_of_lt this

variable {p : NodeId} (hp : p < t.nodes.size) (k : Nat) (content : Node)

omit h in
@[simp] theorem size_planted (p : NodeId) :
    (planted t p k content).nodes.size = t.nodes.size + 1 := by
  rw [planted, size_moved, size_plant]

include hp

theorem parentOf_planted (i : NodeId) :
    (planted t p k content).parentOf i = if i = t.nodes.size then some p else t.parentOf i := by
  rw [planted, parentOf_moved (h.forest.plant content) (by simp) (not_within_new h hp content),
    parentOf_plant]

theorem contentOf_planted (i : NodeId) :
    (planted t p k content).contentOf i =
      if i = t.nodes.size then some { content.content with id := t.nodes.size }
      else t.contentOf i := by
  rw [planted, contentOf_moved (h.forest.plant content) (not_within_new h hp content),
    contentOf_plant]

theorem tag?_planted_new : (planted t p k content).tag? t.nodes.size = content.tag? := by
  rw [tag?_eq, contentOf_planted h hp, if_pos rfl]
  rfl

theorem childrenOf_planted (i : NodeId) :
    (planted t p k content).childrenOf i =
      if i = p then (t.childrenOf i).take k ++ t.nodes.size :: (t.childrenOf i).drop k
      else t.childrenOf i := by
  rw [planted, childrenOf_moved (h.forest.plant content) (by simpa using Nat.lt_succ_of_lt hp)
    (not_within_new h hp content), filter_childrenOf_plant h]

omit hp in
theorem Proper.planted {tag : String} (ht : t.tag? p = some tag) :
    Proper (planted t p k content) ∧ (planted t p k content).root = t.root := by
  have hp := lt_size_of_tag? ht
  have hin := not_within_new h hp content
  have hroot : (t.plant content).root ≠ some t.nodes.size := by
    intro hr
    exact Nat.lt_irrefl _ (h.forest.root_lt (by simpa using hr))
  have htp : (t.plant content).tag? p = some tag := by
    rw [tag?_eq, contentOf_plant, if_neg (Nat.ne_of_lt hp), ← tag?_eq, ht]
  refine ⟨(h.plant content).moved htp (by simp) hroot hin k, ?_⟩
  rw [Tree.planted, root_moved, if_neg fun hc => hroot hc.2, root_plant]

theorem Kept.planted {tags names : List String} : Kept tags names t (planted t p k content) := by
  refine .of_contentOf fun i n hn => ?_
  have hi : i < t.nodes.size := contentOf_isSome_iff.1 (by simp [hn])
  rw [contentOf_planted h hp, if_neg (Nat.ne_of_lt hi), hn]

omit h hp in
theorem eq_size_of_planted {i : NodeId} (hi : t.nodes.size ≤ i)
    (hlt : i < (planted t p k content).nodes.size) : i = t.nodes.size := by
  rw [size_planted] at hlt
  exact Nat.le_antisymm (Nat.lt_succ_iff.1 hlt) hi

omit hp in
theorem run_insertChild_new {tag : String} (ht : t.tag? p = some tag) :
    (Edit.insertChild p k t.nodes.size).run (t.plant content) = .ok () (planted t p k content) := by
  have hp := lt_size_of_tag? ht
  exact run_insertChild_of_not_within (h.plant content) k (by simpa using Nat.lt_succ_of_lt hp)
    (by simp) (not_within_new h hp content)

omit hp in
theorem run_appendChild_new {tag : String} (ht : t.tag? p = some tag) :
    (Edit.appendChild p t.nodes.size).run (t.plant content) =
      .ok () (planted t p (t.childrenOf p).length content) := by
  have hp := lt_size_of_tag? ht
  rw [run_appendChild_of_not_within (h.plant content) (by simpa using Nat.lt_succ_of_lt hp)
    (by simp) (not_within_new h hp content), childrenOf_plant, planted]

omit hp in
theorem run_insertBefore_new {r : NodeId} (hr : t.parentOf r = some p) :
    (Edit.insertBefore r t.nodes.size).run (t.plant content) =
      .ok () (planted t p ((t.childrenOf p).idxOf r) content) := by
  have hp := h.forest.parent_lt hr
  have hne : r ≠ t.nodes.size := Nat.ne_of_lt (lt_size_of_parentOf hr)
  have hroot : (t.plant content).root ≠ some t.nodes.size := by
    intro hr
    exact Nat.lt_irrefl _ (h.forest.root_lt (by simpa using hr))
  rw [Edit.insertBefore, run_insertBeside_of_not_within (h.plant content) 0 hne
    (by rwa [parentOf_plant]) (by simp) hroot (not_within_new h hp content),
    filter_childrenOf_plant h, planted]
  rfl

end Planted

/-! ### Adopting -/

theorem ext_get? {t t' : Tree} (hr : t.root = t'.root) (h : ∀ i, t.get? i = t'.get? i) :
    t = t' := by
  cases t
  cases t'
  simp only [mk.injEq] at hr ⊢
  exact ⟨Array.ext_getElem? h, hr⟩

theorem update_congr {t : Tree} {id : NodeId} {f g : Node → Node}
    (h : ∀ n, t.get? id = some n → f n = g n) : t.update id f = t.update id g := by
  refine ext_get? rfl fun i => ?_
  rw [get?_update, get?_update]
  split
  · next hi =>
    subst hi
    cases hn : t.get? id with
    | none => rfl
    | some n => rw [Option.map_some, Option.map_some, h n hn]
  · rfl

theorem update_eq_self {t : Tree} {id : NodeId} {f : Node → Node}
    (h : ∀ n, t.get? id = some n → f n = n) : t.update id f = t := by
  rw [update_congr h]
  exact ext_get? rfl fun i => by rw [get?_update, Option.map_id', ite_self]

theorem get?_adopt {t : Tree} {p : NodeId} (hp : p < t.nodes.size) (content : Node) (i : NodeId) :
    (t.adopt p content).get? i =
      if i = t.nodes.size then
        some { content with id := t.nodes.size, parent := some p, children := [] }
      else if i = p then (t.get? i).map fun n => { n with children := n.children ++ [t.nodes.size] }
      else t.get? i := by
  have hne : p ≠ t.nodes.size := Nat.ne_of_lt hp
  simp only [adopt, get?_update, get?_plant]
  by_cases hi : i = t.nodes.size
  · simp [hi, hne]
  · by_cases hip : i = p
    · simp [hip, hne, Ne.symm hne]
    · simp [hi, hip, Ne.symm hi, Ne.symm hip]

@[simp] theorem size_adopt (t : Tree) (p : NodeId) (content : Node) :
    (t.adopt p content).nodes.size = t.nodes.size + 1 := by
  simp [adopt]

@[simp] theorem root_adopt (t : Tree) (p : NodeId) (content : Node) :
    (t.adopt p content).root = t.root := rfl

section Adopt

variable {t : Tree} {p : NodeId} (hp : p < t.nodes.size) (content : Node)

include hp

theorem contentOf_adopt (i : NodeId) :
    (t.adopt p content).contentOf i =
      if i = t.nodes.size then some { content.content with id := t.nodes.size }
      else t.contentOf i := by
  rw [contentOf, get?_adopt hp, contentOf]
  split
  · rfl
  · split
    · cases t.get? i <;> rfl
    · rfl

theorem parentOf_adopt (i : NodeId) :
    (t.adopt p content).parentOf i = if i = t.nodes.size then some p else t.parentOf i := by
  rw [parentOf, get?_adopt hp, parentOf]
  split
  · rfl
  · split
    · cases t.get? i <;> rfl
    · rfl

theorem tag?_adopt_of_lt {i : NodeId} (hi : i < t.nodes.size) :
    (t.adopt p content).tag? i = t.tag? i := by
  rw [tag?_eq, contentOf_adopt hp, if_neg (Nat.ne_of_lt hi), ← tag?_eq]

theorem tag?_adopt_new : (t.adopt p content).tag? t.nodes.size = content.tag? := by
  rw [tag?_eq, contentOf_adopt hp, if_pos rfl]
  rfl

theorem childrenOf_adopt (i : NodeId) :
    (t.adopt p content).childrenOf i =
      if i = p then t.childrenOf i ++ [t.nodes.size] else t.childrenOf i := by
  rw [childrenOf, get?_adopt hp, childrenOf]
  split
  · next hi =>
    have hne : i ≠ p := hi ▸ (Nat.ne_of_lt hp).symm
    rw [if_neg hne, hi, get?_eq_none_iff.2 (Nat.le_refl _)]
    rfl
  · split
    · next hi =>
      obtain ⟨n, hn⟩ := Option.isSome_iff_exists.1 (get?_isSome_iff.2 hp)
      rw [hi, hn]
      rfl
    · rfl

end Adopt

theorem adopt_eq_planted {t : Tree} (h : Proper t) {p : NodeId} (hp : p < t.nodes.size)
    (content : Node) : t.adopt p content = planted t p (t.childrenOf p).length content := by
  have hne : p ≠ t.nodes.size := Nat.ne_of_lt hp
  have hroot : (t.plant content).root ≠ some t.nodes.size := fun hr =>
    Nat.lt_irrefl _ (h.forest.root_lt hr)
  have hd : (t.plant content).detached t.nodes.size = t.plant content := by
    rw [detached, parentOf_plant, parentOf_eq_none_of_size_le (Nat.le_refl _)]
    simp only
    rw [if_neg hroot]
  refine ext_get? ?_ fun i => ?_
  · rw [planted, root_moved, if_neg fun hc => hroot hc.2, root_adopt, root_plant]
  · rw [get?_adopt hp, planted, moved, hd, get?_link hne, get?_plant]
    by_cases hi : i = t.nodes.size
    · simp [hi]
    · rw [if_neg hi, if_neg hi, if_neg hi]
      split
      · next hip =>
        obtain ⟨n, hn⟩ := Option.isSome_iff_exists.1 (get?_isSome_iff.2 hp)
        rw [hip, hn, childrenOf_of_get? hn]
        simp
      · rfl

theorem Proper.adopt {t : Tree} (h : Proper t) {p : NodeId} {tag : String}
    (ht : t.tag? p = some tag) (content : Node) : Proper (t.adopt p content) := by
  rw [adopt_eq_planted h (lt_size_of_tag? ht)]
  exact (Proper.planted h _ content ht).1

end BookMarkup.Tree
