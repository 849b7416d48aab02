import BookMarkup.Proofs.Tree.Planted

/-!
Nodes numbered in document order. A list of siblings is laid out from `i` to `j` if the siblings with
all below them take up the numbers from `i` on, one after the other, up to but not including `j`. A
tree that is being read is laid out along its spine, the chain of elements that are still open: what
these hold so far ends where the next node will be.
-/

namespace BookMarkup.Tree

/-- The nodes with all below them have the numbers from the first one up to the second. -/
inductive Laid (t : Tree) : List NodeId → NodeId → NodeId → Prop
  | nil (i : NodeId) : Laid t [] i i
  | cons {c k j : NodeId} {cs : List NodeId} (hc : c < t.nodes.size)
      (inner : Laid t (t.childrenOf c) (c + 1) k) (rest : Laid t cs k j) : Laid t (c :: cs) c j

section Laid

variable {t t' : Tree} {cs ds : List NodeId} {i j k : NodeId}

theorem Laid.le (h : Laid t cs i j) : i ≤ j := by
  induction h with
  | nil => exact Nat.le_refl _
  | cons _ _ _ ih ih' => exact Nat.le_trans (Nat.le_of_succ_le ih) ih'

theorem Laid.append (h : Laid t cs i j) (h' : Laid t ds j k) : Laid t (cs ++ ds) i k := by
  induction h with
  | nil => exact h'
  | cons hc inner _ _ ih => exact .cons hc inner (ih h')

theorem Laid.bounds (h : Laid t cs i j) {c : NodeId} (hc : c ∈ cs) : i ≤ c ∧ c < j := by
  induction h with
  | nil => simp at hc
  | cons _ inner rest _ ih =>
      rcases List.mem_cons.1 hc with rfl | hc
      · exact ⟨Nat.le_refl _, Nat.lt_of_lt_of_le inner.le rest.le⟩
      · exact ⟨Nat.le_trans (Nat.le_of_succ_le inner.le) (ih hc).1, (ih hc).2⟩

theorem Laid.pairwise (h : Laid t cs i j) : cs.Pairwise (· < ·) := by
  induction h with
  | nil => exact .nil
  | cons _ inner rest _ ih =>
      exact .cons (fun c hc => Nat.lt_of_lt_of_le inner.le (rest.bounds hc).1) ih

/-- Nodes are laid out as long as nothing below them changes. -/
theorem Laid.frame (h : Laid t cs i j) (hs : t.nodes.size ≤ t'.nodes.size)
    (hsame : ∀ x, i ≤ x → x < j → t'.childrenOf x = t.childrenOf x) : Laid t' cs i j := by
  induction h with
  | nil i => exact .nil i
  | @cons c k j cs hc inner rest ih ih' =>
      have hck : c < k := inner.le
      refine .cons (k := k) (Nat.lt_of_lt_of_le hc hs) ?_
        (ih' fun x hx hxj => hsame x (Nat.le_trans (Nat.le_of_lt hck) hx) hxj)
      rw [hsame c (Nat.le_refl c) (Nat.lt_of_lt_of_le hck rest.le)]
      exact ih fun x hx hxk => hsame x (Nat.le_of_succ_le hx) (Nat.lt_of_lt_of_le hxk rest.le)

/-- Inside laid out nodes every node has its children laid out right after it. -/
theorem Laid.inner (h : Laid t cs i j) {x : NodeId} (hi : i ≤ x) (hj : x < j) :
    ∃ k, Laid t (t.childrenOf x) (x + 1) k := by
  induction h with
  | nil => exact absurd (Nat.lt_of_le_of_lt hi hj) (Nat.lt_irrefl _)
  | @cons c k j cs hc inner rest ih ih' =>
      by_cases hxc : x = c
      · exact hxc ▸ ⟨k, inner⟩
      · by_cases hxk : x < k
        · exact ih (Nat.lt_of_le_of_ne hi (Ne.symm hxc)) hxk
        · exact ih' (Nat.le_of_not_lt hxk) hj

end Laid

/-! ### The spine -/

/-- The element `a` is open inside the elements in the list, the innermost first: it is the last
child of each that there is so far. -/
inductive Around (t : Tree) : NodeId → List NodeId → Prop
  | root (hr : t.root = some 0) (hs : 0 < t.nodes.size) : Around t 0 []
  | child {a b : NodeId} {before rest : List NodeId} (ha : a < t.nodes.size)
      (hb : t.childrenOf b = before ++ [a]) (laid : Laid t before (b + 1) a)
      (around : Around t b rest) : Around t a (b :: rest)

/-- The open elements of a tree that is being read, the innermost first, and what they hold. -/
def Spine (t : Tree) : List NodeId → Prop
  | [] => t.root = none ∧ t.nodes.size = 0 ∨ t.root = some 0 ∧ Laid t [0] 0 t.nodes.size
  | a :: rest => Laid t (t.childrenOf a) (a + 1) t.nodes.size ∧ Around t a rest

section Spine

variable {t t' : Tree} {a : NodeId} {rest : List NodeId}

theorem Around.lt (h : Around t a rest) : a < t.nodes.size := by
  cases h with
  | root _ hs => exact hs
  | child ha _ _ _ => exact ha

theorem Around.lt_of_mem (h : Around t a rest) {b : NodeId} (hb : b ∈ rest) : b < a := by
  induction h with
  | root => simp at hb
  | @child a c before rest _ _ laid _ ih =>
      have hca : c < a := laid.le
      rcases List.mem_cons.1 hb with rfl | hb
      · exact hca
      · exact Nat.lt_trans (ih hb) hca

theorem Around.frame (h : Around t a rest) (hr : t'.root = t.root)
    (hs : t.nodes.size ≤ t'.nodes.size) (hsame : ∀ x < a, t'.childrenOf x = t.childrenOf x) :
    Around t' a rest := by
  induction h with
  | root hroot hsize => exact .root (hr.trans hroot) (Nat.lt_of_lt_of_le hsize hs)
  | @child a b before rest ha hb laid _ ih =>
      have hba : b < a := laid.le
      refine .child (Nat.lt_of_lt_of_le ha hs) ((hsame b hba).trans hb)
        (laid.frame hs fun x _ hx => hsame x hx) (ih fun x hx => hsame x (Nat.lt_trans hx hba))

theorem Spine.pop (h : Spine t (a :: rest)) : Spine t rest := by
  obtain ⟨laid, around⟩ := h
  have hone : Laid t [a] a t.nodes.size := .cons around.lt laid (.nil _)
  cases around with
  | root hr _ => exact .inr ⟨hr, hone⟩
  | child _ hb before around => exact ⟨hb ▸ before.append hone, around⟩

theorem childrenOf_adopt_new (ha : a < t.nodes.size) (content : Node) :
    (t.adopt a content).childrenOf t.nodes.size = [] := by
  rw [childrenOf_adopt ha, if_neg (Nat.ne_of_lt ha).symm,
    childrenOf_eq_nil_of_size_le (Nat.le_refl _)]

theorem Spine.frame_adopt (h : Spine t (a :: rest)) (content : Node) :
    Laid (t.adopt a content) (t.childrenOf a) (a + 1) t.nodes.size ∧
      Around (t.adopt a content) a rest := by
  obtain ⟨laid, around⟩ := h
  have hs : t.nodes.size ≤ (t.adopt a content).nodes.size := by simp
  refine ⟨laid.frame hs fun x hx _ => ?_, around.frame rfl hs fun x hx => ?_⟩
  · rw [childrenOf_adopt around.lt, if_neg (Nat.ne_of_lt hx).symm]
  · rw [childrenOf_adopt around.lt, if_neg (Nat.ne_of_lt hx)]

theorem Spine.adopt (h : Spine t (a :: rest)) (content : Node) :
    Spine (t.adopt a content) (a :: rest) := by
  obtain ⟨laid, around⟩ := h.frame_adopt content
  refine ⟨?_, around⟩
  rw [childrenOf_adopt h.2.lt, if_pos rfl, size_adopt]
  refine laid.append (.cons (k := t.nodes.size + 1) (by simp) ?_ (.nil _))
  rw [childrenOf_adopt_new h.2.lt]
  exact .nil _

theorem Spine.push (h : Spine t (a :: rest)) (content : Node) :
    Spine (t.adopt a content) (t.nodes.size :: a :: rest) := by
  obtain ⟨laid, around⟩ := h.frame_adopt content
  refine ⟨?_, .child (by simp) ?_ laid around⟩
  · rw [childrenOf_adopt_new h.2.lt, size_adopt]
    exact .nil _
  · rw [childrenOf_adopt h.2.lt, if_pos rfl]

def founded (t : Tree) (content : Node) : Tree :=
  { t.plant content with root := some t.nodes.size }

@[simp] theorem size_founded (t : Tree) (content : Node) :
    (t.founded content).nodes.size = t.nodes.size + 1 :=
  size_plant t content

@[simp] theorem root_founded (t : Tree) (content : Node) :
    (t.founded content).root = some t.nodes.size := rfl

theorem tag?_founded_new (t : Tree) (content : Node) :
    (t.founded content).tag? t.nodes.size = content.tag? :=
  congrArg (Option.bind · Node.tag?) ((get?_plant t content _).trans (if_pos rfl))

theorem Spine.founded (hs : t.nodes.size = 0) (content : Node) :
    Spine (t.founded content) [t.nodes.size] := by
  have hchildren : (t.founded content).childrenOf t.nodes.size = [] :=
    (childrenOf_plant t content _).trans (childrenOf_eq_nil_of_size_le (Nat.le_refl _))
  refine ⟨?_, ?_⟩
  · rw [hchildren, size_founded]
    exact .nil _
  · rw [hs]
    exact .root (by rw [root_founded, hs]) (by simp)

theorem Proper.founded (h : Proper t) {content : Node} (he : content.isElement)
    (hs : t.nodes.size = 0) : Proper (t.founded content) where
  forest := (h.forest.plant content).of_same_links (fun hn => (h.forest.plant content).numbered hn)
    (fun _ => rfl) (fun _ => rfl) fun {r} hr => by
      obtain rfl : t.nodes.size = r := Option.some.inj hr
      refine ⟨{ content with id := t.nodes.size, parent := none, children := [] }, ?_, he⟩
      exact (get?_plant t content _).trans (if_pos rfl)
  top {r} _ :=
    (parentOf_plant t content r).trans (parentOf_eq_none_of_size_le (hs ▸ Nat.zero_le r))
  element {i p} hp := by
    have hnone : (t.founded content).parentOf i = none :=
      (parentOf_plant t content i).trans (parentOf_eq_none_of_size_le (hs ▸ Nat.zero_le i))
    simp [hnone] at hp

end Spine

end BookMarkup.Tree
