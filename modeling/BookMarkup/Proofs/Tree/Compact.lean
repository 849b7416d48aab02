import BookMarkup.Proofs.Tree.Copied

/-!
The copy of a tree that has its live nodes alone, numbered in document order. It is as proper as the
tree, and it is laid out as if it had just been read: a node takes the number after the nodes before
it in document order, and all below it the numbers after that.
-/

namespace BookMarkup.Tree

def place (t : Tree) (i : NodeId) : NodeId :=
  (t.live.map Node.id).idxOf i

/-- The live nodes alone, each under the number of its place. -/
def compact (t : Tree) : Tree where
  nodes := (t.live.map (Node.renumbered t.place)).toArray
  root := t.root.map t.place

theorem get?_compact (t : Tree) (j : NodeId) :
    t.compact.get? j = (t.live[j]?).map (Node.renumbered t.place) := by
  simp [get?, compact]

section Forest

variable {t : Tree} (hf : Forest t)

include hf

theorem Forest.getElem?_place {i : NodeId} {n : Node} (hl : t.Live i) (hn : t.get? i = some n) :
    t.live[t.place i]? = some n := by
  have hm := hf.mem_map_live.2 hl
  have hlt : t.place i < (t.live.map Node.id).length := List.idxOf_lt_length_iff.2 hm
  have hid : (t.live.map Node.id)[t.place i]? = some i := by
    rw [List.getElem?_eq_getElem hlt]
    exact congrArg some (List.getElem_idxOf hlt)
  rw [List.getElem?_map, Option.map_eq_some_iff] at hid
  obtain ⟨m, hm, rfl⟩ := hid
  obtain ⟨hg, _⟩ := hf.mem_live.1 (List.mem_of_getElem? hm)
  rw [hm, ← hg, hn]

theorem Forest.copied_compact : Copied t.place t t.compact where
  root := rfl
  get? i n hl hn := by rw [get?_compact, hf.getElem?_place hl hn, Option.map_some]

theorem Forest.exists_place {j : NodeId} (hj : j < t.compact.nodes.size) :
    ∃ i, t.Live i ∧ t.place i = j := by
  obtain ⟨m, hm⟩ := Option.isSome_iff_exists.1 (get?_isSome_iff.2 hj)
  rw [get?_compact, Option.map_eq_some_iff] at hm
  obtain ⟨n, hn, -⟩ := hm
  obtain ⟨hlt, hget⟩ := List.getElem?_eq_some_iff.1 hn
  refine ⟨n.id, (hf.mem_live.1 (List.mem_of_getElem? hn)).2, ?_⟩
  have hlt' : j < (t.live.map Node.id).length := by rwa [List.length_map]
  have hid : (t.live.map Node.id)[j] = n.id := by rw [List.getElem_map, hget]
  rw [place, ← hid]
  exact hf.nodup_live.idxOf_getElem j _

theorem Forest.place_injective {i j : NodeId} (hi : t.Live i) (he : t.place i = t.place j) :
    i = j :=
  (List.idxOf_inj (hf.mem_map_live.2 hi)).1 he

theorem Forest.within_of_place {u j : NodeId} (hl : t.Live u) (ht : Proper t)
    (hw : Within t.compact (t.place u) j) : ∃ v, t.Live v ∧ t.place v = j ∧ Within t u v := by
  generalize hi : t.place u = i at hw
  induction hw generalizing u with
  | refl => exact ⟨u, hl, hi, .refl u⟩
  | step hp _ ih =>
      rw [← hi, hf.copied_compact.parentOf hf hl] at hp
      obtain ⟨p, hup, hpj⟩ := Option.map_eq_some_iff.1 hp
      obtain ⟨v, hv, hvj, hw⟩ := ih (hl.parent ht hup) hpj
      exact ⟨v, hv, hvj, .step hup hw⟩

end Forest

section Proper

variable {t : Tree} (ht : Proper t)

include ht

theorem Proper.exists_parentOf_compact {j p : NodeId} (hp : t.compact.parentOf j = some p) :
    ∃ i q, t.Live i ∧ t.Live q ∧ t.parentOf i = some q ∧ t.place i = j ∧ t.place q = p := by
  obtain ⟨i, hl, rfl⟩ := ht.forest.exists_place (lt_size_of_parentOf hp)
  rw [ht.forest.copied_compact.parentOf ht.forest hl] at hp
  obtain ⟨q, hq, rfl⟩ := Option.map_eq_some_iff.1 hp
  exact ⟨i, q, hl, hl.parent ht hq, hq, rfl, rfl⟩

theorem Proper.forest_compact : Forest t.compact := by
  have hf := ht.forest
  have hc := hf.copied_compact
  refine .of_views ?_ (fun p c => ⟨fun hm => ?_, fun hp => ?_⟩) (fun p => ?_)
    (fun i j hp hw => ?_) ?_
  · intro j m hm
    obtain ⟨i, hl, rfl⟩ := hf.exists_place (lt_size_of_get? hm)
    rw [hc.get?_eq hf hl] at hm
    obtain ⟨n, hn, rfl⟩ := Option.map_eq_some_iff.1 hm
    exact congrArg t.place (hf.numbered hn)
  · obtain ⟨a, hl, rfl⟩ := hf.exists_place (lt_size_of_mem_childrenOf hm)
    rw [hc.childrenOf hf hl] at hm
    obtain ⟨b, hb, rfl⟩ := List.mem_map.1 hm
    have hba := hf.mem_childrenOf.1 hb
    rw [hc.parentOf hf (hl.child hba), hba, Option.map_some]
  · obtain ⟨b, a, _, hl, hba, rfl, rfl⟩ := ht.exists_parentOf_compact hp
    rw [hc.childrenOf hf hl]
    exact List.mem_map_of_mem (hf.mem_childrenOf.2 hba)
  · by_cases hp : p < t.compact.nodes.size
    · obtain ⟨a, hl, rfl⟩ := hf.exists_place hp
      rw [hc.childrenOf hf hl]
      exact (hf.nodup_childrenOf a).map_on fun b hb _ _ he =>
        hf.place_injective (hl.child (hf.mem_childrenOf.1 hb)) he
    · rw [childrenOf_eq_nil_of_size_le (Nat.le_of_not_lt hp)]
      exact List.nodup_nil
  · obtain ⟨a, b, ha, hb, hab, rfl, rfl⟩ := ht.exists_parentOf_compact hp
    obtain ⟨v, hv, hva, hbv⟩ := hf.within_of_place hb ht hw
    obtain rfl := hf.place_injective hv hva
    exact hf.not_within_parent hab hbv
  · intro r' hr'
    obtain ⟨r, hr, rfl⟩ := Option.map_eq_some_iff.1 hr'
    obtain ⟨n, hn, he⟩ := hf.elementRoot hr
    exact ⟨_, hc.get? r n ⟨r, hr, .refl r⟩ hn, he⟩

theorem Proper.compact : Proper t.compact where
  forest := ht.forest_compact
  top {r'} hr' := by
    obtain ⟨r, hr, rfl⟩ := Option.map_eq_some_iff.1 hr'
    rw [ht.forest.copied_compact.parentOf ht.forest ⟨r, hr, .refl r⟩, ht.top hr, Option.map_none]
  element {i p} hp := by
    obtain ⟨a, b, _, hb, hab, rfl, rfl⟩ := ht.exists_parentOf_compact hp
    obtain ⟨tag, htag⟩ := ht.element hab
    exact ⟨tag, by rw [ht.forest.copied_compact.tag? ht.forest hb, htag]⟩

end Proper

/-! ### The numbers of a compact tree -/

section Laid

variable {t : Tree} (hf : Forest t)

include hf

/-- A node has the number of the nodes before it. -/
theorem Forest.place_eq {before after : List NodeId} {i : NodeId}
    (hs : t.live.map Node.id = before ++ i :: after) : t.place i = before.length := by
  have hd := hf.nodup_live
  rw [hs] at hd
  rw [place, hs, List.idxOf_append_of_notMem (not_mem_of_nodup hd).1, List.idxOf_cons_self,
    Nat.add_zero]

omit hf in
/-- Siblings that stand next to each other in document order, with all below them, take up the
numbers of their places. -/
theorem laid_places (cs : List NodeId) (hcs : ∀ c ∈ cs, t.Live c ∧ ∀ before after,
      t.live.map Node.id = before ++ ((t.subtree c).map Node.id ++ after) →
      Laid t.compact [t.place c] before.length (before.length + (t.subtree c).length))
    (before after : List NodeId)
    (hs : t.live.map Node.id = before ++ ((cs.flatMap t.subtree).map Node.id ++ after)) :
    Laid t.compact (cs.map t.place) before.length
      (before.length + (cs.flatMap t.subtree).length) := by
  induction cs generalizing before with
  | nil => exact .nil _
  | cons c cs ih =>
      rw [List.flatMap_cons, List.map_append, List.append_assoc] at hs
      have hfirst := (hcs c List.mem_cons_self).2 before _ hs
      have hrest := ih (fun d hd => hcs d (List.mem_cons_of_mem c hd))
        (before ++ (t.subtree c).map Node.id) (by rw [hs, List.append_assoc])
      rw [List.length_append, List.length_map] at hrest
      rw [List.map_cons, List.flatMap_cons, List.length_append, ← Nat.add_assoc]
      exact hfirst.append hrest

theorem Forest.laid_place {i : NodeId} (hl : t.Live i) (before after : List NodeId)
    (hs : t.live.map Node.id = before ++ ((t.subtree i).map Node.id ++ after)) :
    Laid t.compact [t.place i] before.length (before.length + (t.subtree i).length) := by
  induction i using hf.induction_children generalizing before after with
  | step i ih =>
      obtain ⟨n, hn⟩ := Option.isSome_iff_exists.1 (get?_isSome_iff.2 (hl.lt hf))
      have hc := hf.copied_compact
      rw [hf.subtree_eq hn, List.map_cons, hf.numbered hn, List.cons_append] at hs
      rw [hf.place_eq hs, hf.subtree_eq hn, List.length_cons, Nat.add_comm _ 1, ← Nat.add_assoc]
      have hinner := laid_places n.children (fun c hm => by
        rw [← childrenOf_of_get? hn] at hm
        have hlc := hl.child (hf.mem_childrenOf.1 hm)
        exact ⟨hlc, fun before after hs => ih c hm hlc before after hs⟩) (before ++ [i]) after
        (by rw [hs, List.append_assoc, List.singleton_append])
      have hsize : before.length < t.compact.nodes.size := by
        rw [← hf.place_eq hs]
        exact lt_size_of_get? (hc.get? i n hl hn)
      refine .cons hsize ?_ (.nil _)
      rw [← hf.place_eq hs, hc.childrenOf hf hl, childrenOf_of_get? hn, hf.place_eq hs]
      rwa [List.length_append, List.length_singleton] at hinner

/-- The compact tree is laid out from its root on. -/
theorem Forest.laid_compact : t.compact.root = none ∧ t.compact.nodes.size = 0 ∨
    t.compact.root = some 0 ∧ Laid t.compact [0] 0 t.compact.nodes.size := by
  cases hr : t.root with
  | none => exact .inl (by simp [compact, live, hr])
  | some r =>
      have hlive := hf.live_eq hr
      have hsize : t.compact.nodes.size = (t.subtree r).length := by simp [compact, hlive]
      have hlaid := hf.laid_place ⟨r, hr, .refl r⟩ [] [] (by simp [hlive])
      obtain ⟨n, hn⟩ := Option.isSome_iff_exists.1 (get?_isSome_iff.2 (hf.root_lt hr))
      have hroot : t.place r = 0 := hf.place_eq (by
        rw [hlive, hf.subtree_eq hn, List.map_cons, hf.numbered hn, List.nil_append])
      rw [hroot, List.length_nil, Nat.zero_add, ← hsize] at hlaid
      exact .inr ⟨by rw [compact, hr, Option.map_some, hroot], hlaid⟩

end Laid

end BookMarkup.Tree
