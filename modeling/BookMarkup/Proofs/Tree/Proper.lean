import BookMarkup.Proofs.Tree.Order
import BookMarkup.Proofs.Tree.Outcome

/-!
Proper trees: forests whose root has no parent and in which only elements have children, as reading
leaves them. On a proper tree an edit that is asked for sensibly succeeds and leaves a proper tree.
A comparison of two trees says which tags and attributes may differ on the nodes that they share.
-/

namespace BookMarkup.Tree

open EStateM (Result)

structure Proper (t : Tree) : Prop where
  forest : Forest t
  top : ∀ {r}, t.root = some r → t.parentOf r = none
  element : ∀ {i p}, t.parentOf i = some p → ∃ tag, t.tag? p = some tag

theorem lt_size_of_tag? {t : Tree} {i : NodeId} {tag : String} (h : t.tag? i = some tag) :
    i < t.nodes.size := by
  obtain ⟨n, hn, _⟩ := Option.bind_eq_some_iff.1 h
  exact lt_size_of_get? hn

theorem exists_of_tag? {t : Tree} {i : NodeId} {tag : String} (h : t.tag? i = some tag) :
    ∃ n, t.get? i = some n ∧ n.isElement = true ∧ n.name = tag := by
  obtain ⟨n, hn, ht⟩ := Option.bind_eq_some_iff.1 h
  by_cases he : n.isElement
  · exact ⟨n, hn, he, by simpa [Node.tag?, he] using ht⟩
  · simp [Node.tag?, he] at ht

theorem tag?_of_get? {t : Tree} {i : NodeId} {n : Node} (hn : t.get? i = some n) :
    t.tag? i = n.tag? := by
  rw [tag?, hn, Option.bind_some]

theorem tag?_eq_of_contentOf {t t' : Tree} {i : NodeId} (h : t'.contentOf i = t.contentOf i) :
    t'.tag? i = t.tag? i := by
  rw [tag?_eq, tag?_eq, h]

theorem Proper.lt_of_live {t : Tree} (h : Proper t) {i : NodeId} (hl : t.Live i) :
    i < t.nodes.size :=
  hl.lt h.forest

theorem Live.exists_parent {t : Tree} {i : NodeId} (hl : t.Live i) (hr : t.root ≠ some i) :
    ∃ p, t.parentOf i = some p ∧ t.Live p := by
  obtain ⟨r, hr', hw⟩ := hl
  cases hw with
  | refl => exact absurd hr' hr
  | step hp hw => exact ⟨_, hp, r, hr', hw⟩

theorem Live.parent {t : Tree} (h : Proper t) {i p : NodeId} (hl : t.Live i)
    (hp : t.parentOf i = some p) : t.Live p := by
  obtain ⟨q, hq, hl⟩ := hl.exists_parent fun hr => by simp [h.top hr] at hp
  rw [hp, Option.some.injEq] at hq
  exact hq ▸ hl

theorem Proper.childrenOf_eq_nil {t : Tree} (h : Proper t) {i : NodeId} (ht : t.tag? i = none) :
    t.childrenOf i = [] := by
  refine List.eq_nil_iff_forall_not_mem.2 fun c hc => ?_
  obtain ⟨tag, htag⟩ := h.element (h.forest.mem_childrenOf.1 hc)
  simp [ht] at htag

/-! ### Sensible edits -/

theorem run_parent? {t : Tree} {id : NodeId} (h : id < t.nodes.size) :
    (Edit.ask (·.parent? id)).run t = .ok (t.parentOf id) t := by
  have hrun := run_ask_parent? id pure t
  rwa [bind_pure, if_pos h] at hrun

theorem run_childIds {t : Tree} {id : NodeId} (h : id < t.nodes.size) :
    (Edit.ask (·.childIds id)).run t = .ok (t.childrenOf id) t := by
  have hrun := run_ask_childIds id pure t
  rwa [bind_pure, if_pos h] at hrun

theorem run_rename_of_tag? {t : Tree} {id : NodeId} {old : String} (ht : t.tag? id = some old)
    (tag : String) :
    (Edit.rename id tag).run t = .ok () (t.update id fun n => { n with name := tag }) := by
  obtain ⟨n, hn, he, _⟩ := exists_of_tag? ht
  rw [run_rename, hn]
  simp only [he, if_true]

theorem tag?_update_name {t : Tree} {id : NodeId} {old : String} (ht : t.tag? id = some old)
    (tag : String) (i : NodeId) :
    (t.update id fun n => { n with name := tag }).tag? i =
      if i = id then some tag else t.tag? i := by
  rw [tag?, get?_update]
  by_cases hi : id = i
  · subst hi
    obtain ⟨n, hn, he, _⟩ := exists_of_tag? ht
    have he' : ({ n with name := tag } : Node).isElement = true := he
    simp [hn, Node.tag?, he']
  · rw [if_neg hi, if_neg (Ne.symm hi), tag?]

theorem within_detached_imp {t : Tree} (hf : Forest t) {c i j : NodeId}
    (hw : Within (t.detached c) i j) :
    Within t i j := by
  induction hw with
  | refl => exact .refl _
  | @step i j k hp _ ih =>
      rw [parentOf_detached hf] at hp
      split at hp
      · simp at hp
      · exact .step hp ih

section Edits

variable {t : Tree} (h : Proper t)

include h

theorem Proper.root_ne_of_parentOf {i p : NodeId} (hp : t.parentOf i = some p) :
    t.root ≠ some i := by
  intro hr
  simp [h.top hr] at hp

theorem run_appendChild_of_not_within {p c : NodeId} (hp : p < t.nodes.size)
    (hc : c < t.nodes.size) (hpc : ¬ Within t p c) :
    (Edit.appendChild p c).run t = .ok () (t.moved p (t.childrenOf p).length c) := by
  have ha : ¬ t.isAncestor c p = true := fun ha => hpc (h.forest.isAncestor_iff.1 ha)
  rw [run_appendChild, if_pos hp, run_insertChild h.forest, if_neg ha, if_pos hc, if_pos hp]

theorem run_insertChild_of_not_within {p c : NodeId} (k : Nat) (hp : p < t.nodes.size)
    (hc : c < t.nodes.size) (hpc : ¬ Within t p c) :
    (Edit.insertChild p k c).run t = .ok () (t.moved p k c) := by
  have ha : ¬ t.isAncestor c p = true := fun ha => hpc (h.forest.isAncestor_iff.1 ha)
  rw [run_insertChild h.forest, if_neg ha, if_pos hc, if_pos hp]

/-- A node that is not the root can be detached twice as well as once. -/
theorem moved_detached {c : NodeId} (hr : t.root ≠ some c) (p k : Nat) :
    (t.detached c).moved p k c = t.moved p k c := by
  have hpar : (t.detached c).parentOf c = none := by
    rw [parentOf_detached h.forest, if_pos rfl]
  have hroot : (t.detached c).root ≠ some c := by
    rw [root_detached]
    split <;> simp [hr]
  have hd : (t.detached c).detached c = t.detached c := by
    rw [detached, hpar]
    simp only
    rw [if_neg hroot]
  rw [moved, hd, moved]

theorem run_insertBeside_of_not_within (offset : Nat) {r c p : NodeId} (hrc : r ≠ c)
    (hp : t.parentOf r = some p) (hc : c < t.nodes.size) (hroot : t.root ≠ some c)
    (hpc : ¬ Within t p c) :
    (Edit.insertBeside offset r c).run t =
      .ok () (t.moved p (((t.childrenOf p).filter (· ≠ c)).idxOf r + offset) c) := by
  have hf := h.forest
  have ha : ¬ (t.detached c).isAncestor c p = true := fun ha =>
    hpc (within_detached_imp hf ((hf.detached c).isAncestor_iff.1 ha))
  rw [run_insertBeside hf offset hrc, if_pos hc, if_pos (lt_size_of_parentOf hp), hp]
  simp only
  rw [run_insertChild (hf.detached c), if_neg ha, if_pos (by simpa using hc),
    if_pos (by simpa using hf.parent_lt hp), moved_detached h hroot]

theorem Proper.plant (content : Node) : Proper (t.plant content) where
  forest := h.forest.plant content
  top hr := by
    rw [parentOf_plant]
    exact h.top (by simpa using hr)
  element {i p} hp := by
    rw [parentOf_plant] at hp
    obtain ⟨tag, ht⟩ := h.element hp
    refine ⟨tag, ?_⟩
    rw [tag?_eq, contentOf_plant, if_neg (Nat.ne_of_lt (lt_size_of_tag? ht)), ← tag?_eq, ht]

theorem Proper.update {f : Node → Node} (hf : Node.Relabels f) (id : NodeId) :
    Proper (t.update id f) where
  forest := h.forest.update hf id
  top hr := by
    rw [parentOf_update hf]
    exact h.top (by simpa using hr)
  element {i p} hp := by
    rw [parentOf_update hf] at hp
    obtain ⟨tag, ht⟩ := h.element hp
    obtain ⟨n, hn, he, _⟩ := exists_of_tag? ht
    rw [tag?, get?_update, hn]
    split
    · have he' : (f n).isElement = true := by rwa [Node.isElement, hf.kind]
      exact ⟨(f n).name, by simp [Node.tag?, he']⟩
    · exact ⟨n.name, by simp [Node.tag?, he]⟩

theorem Proper.detached (c : NodeId) : Proper (t.detached c) where
  forest := h.forest.detached c
  top {r} hr := by
    rw [root_detached] at hr
    rw [parentOf_detached h.forest]
    split at hr
    · simp at hr
    · split
      · rfl
      · exact h.top hr
  element {i p} hp := by
    rw [parentOf_detached h.forest] at hp
    split at hp
    · simp at hp
    · obtain ⟨tag, ht⟩ := h.element hp
      exact ⟨tag, (tag?_eq_of_contentOf (contentOf_detached h.forest c p)).trans ht⟩

theorem Proper.moved {p c : NodeId} {tag : String} (ht : t.tag? p = some tag)
    (hc : c < t.nodes.size) (hroot : t.root ≠ some c) (hpc : ¬ Within t p c) (k : Nat) :
    Proper (t.moved p k c) where
  forest := h.forest.moved (lt_size_of_tag? ht) hc hpc k
  top {r} hr := by
    rw [root_moved, if_neg (by simp [hroot])] at hr
    rw [parentOf_moved h.forest hc hpc, if_neg fun (hrc : r = c) => hroot (hrc ▸ hr)]
    exact h.top hr
  element {i q} hq := by
    rw [parentOf_moved h.forest hc hpc] at hq
    rw [tag?_eq_of_contentOf (contentOf_moved h.forest hpc k q)]
    split at hq
    · rw [Option.some.injEq] at hq
      exact ⟨tag, hq ▸ ht⟩
    · exact h.element hq

end Edits

/-! ### What a tree keeps of another -/

/-- The nodes of `t` are kept in `t'`: their kinds and values, their tags but for exchanges among
`tags`, and their attributes but for those with names in `names`. -/
def Kept (tags names : List String) (t t' : Tree) : Prop :=
  ∀ i n, t.contentOf i = some n → ∃ n', t'.contentOf i = some n' ∧ n'.kind = n.kind ∧
    n'.value = n.value ∧ (n'.name = n.name ∨ n.name ∈ tags ∧ n'.name ∈ tags) ∧
    ∀ name, name ∉ names → n'.attribute? name = n.attribute? name

section Kept

variable {tags names : List String} {t t' t'' : Tree}

theorem Kept.refl (tags names : List String) (t : Tree) : Kept tags names t t :=
  fun _ n hn => ⟨n, hn, rfl, rfl, .inl rfl, fun _ _ => rfl⟩

theorem Kept.trans (h : Kept tags names t t') (h' : Kept tags names t' t'') :
    Kept tags names t t'' := by
  intro i n hn
  obtain ⟨n', hn', hk, hv, hname, ha⟩ := h i n hn
  obtain ⟨n'', hn'', hk', hv', hname', ha'⟩ := h' i n' hn'
  refine ⟨n'', hn'', hk'.trans hk, hv'.trans hv, ?_, fun a h => (ha' a h).trans (ha a h)⟩
  rcases hname with hname | hname
  · rcases hname' with hname' | hname'
    · exact .inl (hname'.trans hname)
    · exact .inr ⟨hname ▸ hname'.1, hname'.2⟩
  · rcases hname' with hname' | hname'
    · exact .inr ⟨hname.1, hname'.symm ▸ hname.2⟩
    · exact .inr ⟨hname.1, hname'.2⟩

theorem Kept.of_contentOf (h : ∀ i n, t.contentOf i = some n → t'.contentOf i = some n) :
    Kept tags names t t' :=
  fun i n hn => ⟨n, h i n hn, rfl, rfl, .inl rfl, fun _ _ => rfl⟩

theorem Kept.of_attributes (h : ∀ i n, t.contentOf i = some n → ∃ a,
    t'.contentOf i = some { n with attributes := a } ∧
      ∀ name, name ∉ names → a.get? name = n.attributes.get? name) : Kept tags names t t' := by
  intro i n hn
  obtain ⟨a, ha, hsame⟩ := h i n hn
  exact ⟨_, ha, rfl, rfl, .inl rfl, hsame⟩

theorem Kept.plant (t : Tree) (content : Node) : Kept tags names t (t.plant content) := by
  refine .of_contentOf fun i n hn => ?_
  have hi : i < t.nodes.size := contentOf_isSome_iff.1 (by simp [hn])
  rw [contentOf_plant, if_neg (Nat.ne_of_lt hi), hn]

theorem Kept.lt (h : Kept tags names t t') {i : NodeId} (hi : i < t.nodes.size) :
    i < t'.nodes.size := by
  obtain ⟨n, hn⟩ := Option.isSome_iff_exists.1 (contentOf_isSome_iff.2 hi)
  obtain ⟨n', hn', _⟩ := h i n hn
  exact contentOf_isSome_iff.1 (by simp [hn'])

theorem Kept.tag?_or (h : Kept tags names t t') {i : NodeId} {tag : String}
    (ht : t.tag? i = some tag) :
    ∃ tag', t'.tag? i = some tag' ∧ (tag' = tag ∨ tag ∈ tags ∧ tag' ∈ tags) := by
  rw [tag?_eq] at ht
  obtain ⟨n, hn, ht⟩ := Option.bind_eq_some_iff.1 ht
  obtain ⟨n', hn', hk, _, hname, _⟩ := h i n hn
  have he : n.isElement := by
    by_cases he : n.isElement
    · exact he
    · simp [Node.tag?, he] at ht
  have he' : n'.isElement := by rwa [Node.isElement, hk]
  obtain rfl : n.name = tag := by simpa [Node.tag?, he] using ht
  exact ⟨n'.name, by rw [tag?_eq, hn']; simp [Node.tag?, he'], hname⟩

theorem Kept.tag?_eq_none_iff (h : Kept tags names t t') {i : NodeId} (hi : i < t.nodes.size) :
    t'.tag? i = none ↔ t.tag? i = none := by
  obtain ⟨n, hn⟩ := Option.isSome_iff_exists.1 (contentOf_isSome_iff.2 hi)
  obtain ⟨n', hn', hk, _⟩ := h i n hn
  rw [tag?_eq, hn', Option.bind_some, tag?_eq, hn, Option.bind_some, Node.tag?, Node.tag?,
    Node.isElement, Node.isElement, hk]
  split <;> simp

theorem Kept.tag?_iff (h : Kept tags names t t') {i : NodeId} (hi : i < t.nodes.size)
    {tag : String} (htag : tag ∉ tags) : t'.tag? i = some tag ↔ t.tag? i = some tag := by
  constructor
  · intro ht'
    cases ht : t.tag? i with
    | some old =>
        obtain ⟨tag', ht'', hor⟩ := h.tag?_or ht
        rw [ht', Option.some.injEq] at ht''
        subst ht''
        rcases hor with rfl | hor
        · rfl
        · exact absurd hor.2 htag
    | none => simp [(h.tag?_eq_none_iff hi).2 ht] at ht'
  · intro ht
    obtain ⟨tag', ht', hor⟩ := h.tag?_or ht
    rcases hor with rfl | hor
    · exact ht'
    · exact absurd hor.1 htag

theorem Kept.tag?_eq (h : Kept [] names t t') {i : NodeId} (hi : i < t.nodes.size) :
    t'.tag? i = t.tag? i := by
  cases ht : t.tag? i with
  | none => exact (h.tag?_eq_none_iff hi).2 ht
  | some tag => exact (h.tag?_iff hi List.not_mem_nil).2 ht

theorem Kept.mono (h : Kept [] names t t') : Kept tags names t t' := by
  intro i n hn
  obtain ⟨n', hn', hk, hv, hname, ha⟩ := h i n hn
  exact ⟨n', hn', hk, hv, .inl (hname.resolve_right fun hm => List.not_mem_nil hm.1), ha⟩

theorem Kept.attribute?_eq (h : Kept tags names t t') {i : NodeId} (hi : i < t.nodes.size)
    {name : String} (hname : name ∉ names) : t'.attribute? i name = t.attribute? i name := by
  obtain ⟨n, hn⟩ := Option.isSome_iff_exists.1 (contentOf_isSome_iff.2 hi)
  obtain ⟨n', hn', _, _, _, ha⟩ := h i n hn
  rw [Tree.attribute?_eq, Tree.attribute?_eq, hn, hn']
  exact ha name hname

/-- No node of `t` has gained an attribute in `t'`, unless its name is among `names`. -/
def Ungained (names : List String) (t t' : Tree) : Prop :=
  ∀ i < t.nodes.size, ∀ name, name ∉ names → t.attribute? i name = none →
    t'.attribute? i name = none

theorem Ungained.trans {names' : List String} (h : Ungained names t t')
    (hk : Kept tags names' t t') (h' : Ungained names t' t'') : Ungained names t t'' :=
  fun i hi name hn ha => h' i (hk.lt hi) name hn (h i hi name hn ha)

theorem Ungained.mono {names' : List String} (h : Ungained names t t')
    (hsub : ∀ name ∈ names, name ∈ names') : Ungained names' t t' :=
  fun i hi name hn => h i hi name fun hm => hn (hsub name hm)

theorem Ungained.of_contentOf (h : ∀ i < t.nodes.size, t'.contentOf i = t.contentOf i) :
    Ungained names t t' := by
  intro i hi name _ ha
  rw [Tree.attribute?_eq, h i hi, ← Tree.attribute?_eq, ha]

end Kept

end BookMarkup.Tree
