import BookMarkup.Proofs.Document.Reading
import BookMarkup.Proofs.Token.Leaf

/-!
Where reading leaves texts. No two texts are side by side, since the run of character data goes on
up to the next markup; and a blank text stands where the rule for blank runs keeps it: it is the
only child, or another text is the first one. Only where space is preserved blank texts are free to
stand anywhere. Elements that are still open end with markup whenever a token has been taken.
-/

namespace BookMarkup

namespace Tree

/-- The value of a text; other nodes and unknown numbers have none. -/
def text? (t : Tree) (i : NodeId) : Option String :=
  (t.get? i).bind fun n => if n.isText then some n.value else none

theorem text?_eq (t : Tree) (i : NodeId) :
    t.text? i = (t.contentOf i).bind fun n => if n.isText then some n.value else none := by
  simp only [text?, contentOf, Option.bind_map]
  rfl

theorem text?_eq_some_iff {t : Tree} {i : NodeId} {v : String} :
    t.text? i = some v ↔ ∃ n, t.get? i = some n ∧ n.isText = true ∧ n.value = v := by
  rw [text?, Option.bind_eq_some_iff]
  simp only [Option.ite_none_right_eq_some, Option.some.injEq]

theorem text?_eq_none_iff {t : Tree} {i : NodeId} :
    t.text? i = none ↔ ∀ n, t.get? i = some n → n.isText = false := by
  simp [text?, Option.bind_eq_none_iff]

theorem text?_eq_none_of_isElement {t : Tree} {i : NodeId} {n : Node} (hn : t.get? i = some n)
    (he : n.isElement = true) : t.text? i = none := by
  rw [Node.isElement, beq_iff_eq] at he
  simp [text?, hn, Node.isText, he]

theorem isText_iff {t : Tree} {i : NodeId} :
    ((t.get? i).map Node.isText).getD false = true ↔ ∃ v, t.text? i = some v := by
  rw [text?]
  cases t.get? i with
  | none => simp
  | some n => by_cases ht : n.isText <;> simp [ht]

/-- The first one of the siblings is a text other than `i`. -/
def LedByText (t : Tree) (siblings : List NodeId) (i : NodeId) : Prop :=
  ∃ j rest v, siblings = j :: rest ∧ j ≠ i ∧ t.text? j = some v

/-- No two texts are side by side. -/
def Apart (t : Tree) (siblings : List NodeId) : Prop :=
  ∀ i j, [i, j] <:+: siblings → t.text? i = none ∨ t.text? j = none

/-- The children of an element that has been read: a blank text is the only one, or another text
leads. -/
structure Settled (t : Tree) (siblings : List NodeId) : Prop where
  apart : Apart t siblings
  blank : ∀ i ∈ siblings, ∀ v, t.text? i = some v → Text.isBlank v →
    siblings = [i] ∨ LedByText t siblings i

/-- The children of an element that has been read, in which blank texts may be `free`. -/
structure Placed (free : Prop) (t : Tree) (siblings : List NodeId) : Prop where
  apart : Apart t siblings
  settled : ¬ free → Settled t siblings

/-- The children, so far, of an element that is not closed next: no blank text is the only one. -/
structure Pending (free : Prop) (t : Tree) (siblings : List NodeId) : Prop where
  apart : Apart t siblings
  blank : ¬ free → ∀ i ∈ siblings, ∀ v, t.text? i = some v → Text.isBlank v →
    LedByText t siblings i

/-- The children, so far, of an element that is open after a token: they end with markup. -/
structure Growing (free : Prop) (t : Tree) (siblings : List NodeId) : Prop
    extends Pending free t siblings where
  last : ∀ i ∈ siblings.getLast?, t.text? i = none

section Siblings

variable {free free' : Prop} {t t' : Tree} {siblings : List NodeId} {i : NodeId}

theorem Pending.placed (h : Pending free t siblings) : Placed free t siblings :=
  ⟨h.apart, fun hf => ⟨h.apart, fun i hi v hv hb => .inr (h.blank hf i hi v hv hb)⟩⟩

theorem Settled.placed (h : Settled t siblings) (free : Prop) : Placed free t siblings :=
  ⟨h.apart, fun _ => h⟩

theorem growing_nil (free : Prop) (t : Tree) : Growing free t [] where
  apart i j h := by simp at h
  blank _ i hi := by simp at hi
  last i hi := by simp at hi

theorem LedByText.snoc (h : LedByText t siblings i) (j : NodeId) :
    LedByText t (siblings ++ [j]) i := by
  obtain ⟨k, rest, v, rfl, hk, hv⟩ := h
  exact ⟨k, rest ++ [j], v, rfl, hk, hv⟩

theorem pair_infix_snoc {α : Type} {a b x : α} {xs : List α} (h : [a, b] <:+: xs ++ [x]) :
    [a, b] <:+: xs ∨ xs.getLast? = some a ∧ b = x := by
  obtain ⟨before, after, he⟩ := h
  rcases List.eq_nil_or_concat after with rfl | ⟨after, y, rfl⟩
  · rw [List.append_nil, List.append_cons] at he
    have hxs := List.append_inj' he rfl
    refine .inr ⟨?_, (List.cons.inj hxs.2).1⟩
    rw [← hxs.1, List.getLast?_concat]
  · rw [List.concat_eq_append, ← List.append_assoc] at he
    exact .inl ⟨before, after, (List.append_inj' he rfl).1⟩

theorem Apart.snoc (h : Apart t siblings)
    (hi : ∀ j ∈ siblings.getLast?, t.text? j = none ∨ t.text? i = none) :
    Apart t (siblings ++ [i]) := by
  intro a b hab
  rcases pair_infix_snoc hab with hab | ⟨ha, rfl⟩
  · exact h a b hab
  · exact hi a ha

theorem Pending.snoc (h : Pending free t siblings) (hi : t.text? i = none) :
    Growing free t (siblings ++ [i]) where
  apart := h.apart.snoc fun _ _ => .inr hi
  blank hf j hj v hv hb := by
    rcases List.mem_append.1 hj with hj | hj
    · exact (h.blank hf j hj v hv hb).snoc i
    · rw [List.mem_singleton.1 hj, hi] at hv
      simp at hv
  last j hj := by
    rw [List.getLast?_concat, Option.mem_some] at hj
    exact hj ▸ hi

theorem Growing.snoc_text (h : Growing free t siblings)
    (hi : ¬ free → ∀ v, t.text? i = some v → Text.isBlank v → LedByText t siblings i) :
    Pending free t (siblings ++ [i]) where
  apart := h.apart.snoc fun j hj => .inl (h.last j hj)
  blank hf j hj v hv hb := by
    rcases List.mem_append.1 hj with hj | hj
    · exact (h.blank hf j hj v hv hb).snoc i
    · rw [List.mem_singleton.1 hj] at hv ⊢
      exact (hi hf v hv hb).snoc i

theorem Growing.snoc_last (h : Growing free t siblings)
    (hi : ¬ free → ∀ v, t.text? i = some v → Text.isBlank v →
      siblings = [] ∨ LedByText t siblings i) :
    Placed free t (siblings ++ [i]) := by
  have hapart : Apart t (siblings ++ [i]) := h.apart.snoc fun j hj => .inl (h.last j hj)
  refine ⟨hapart, fun hf => ⟨hapart, fun j hj v hv hb => ?_⟩⟩
  rcases List.mem_append.1 hj with hj | hj
  · exact .inr ((h.blank hf j hj v hv hb).snoc i)
  · rw [List.mem_singleton.1 hj] at hv ⊢
    rcases hi hf v hv hb with rfl | hled
    · exact .inl rfl
    · exact .inr (hled.snoc i)

theorem Apart.congr (h : Apart t siblings) (ht : ∀ i ∈ siblings, t'.text? i = t.text? i) :
    Apart t' siblings := by
  intro a b hab
  rw [ht a (hab.subset (by simp)), ht b (hab.subset (by simp))]
  exact h a b hab

theorem LedByText.congr (h : LedByText t siblings i)
    (ht : ∀ i ∈ siblings, t'.text? i = t.text? i) : LedByText t' siblings i := by
  obtain ⟨j, rest, v, rfl, hj, hv⟩ := h
  exact ⟨j, rest, v, rfl, hj, (ht j List.mem_cons_self).trans hv⟩

theorem Settled.congr (h : Settled t siblings) (ht : ∀ i ∈ siblings, t'.text? i = t.text? i) :
    Settled t' siblings where
  apart := h.apart.congr ht
  blank i hi v hv hb :=
    (h.blank i hi v ((ht i hi).symm.trans hv) hb).imp_right fun hl => hl.congr ht

theorem Placed.congr (h : Placed free t siblings) (hf : free → free')
    (ht : ∀ i ∈ siblings, t'.text? i = t.text? i) : Placed free' t' siblings where
  apart := h.apart.congr ht
  settled hf' := (h.settled (mt hf hf')).congr ht

theorem Pending.congr (h : Pending free t siblings) (hf : free → free')
    (ht : ∀ i ∈ siblings, t'.text? i = t.text? i) : Pending free' t' siblings where
  apart := h.apart.congr ht
  blank hf' i hi v hv hb := (h.blank (mt hf hf') i hi v ((ht i hi).symm.trans hv) hb).congr ht

theorem Growing.congr (h : Growing free t siblings) (hf : free → free')
    (ht : ∀ i ∈ siblings, t'.text? i = t.text? i) : Growing free' t' siblings where
  toPending := h.toPending.congr hf ht
  last i hi := (ht i (List.mem_of_getLast? hi)).trans (h.last i hi)

theorem contentOf_adopt_of_lt (p : NodeId) (content : Node) (hi : i < t.nodes.size) :
    (t.adopt p content).contentOf i = t.contentOf i := by
  have hne : ¬ t.nodes.size = i := Nat.ne_of_gt hi
  have hplant : (t.plant content).get? i = t.get? i := by
    rw [get?_plant, if_neg (Nat.ne_of_lt hi)]
  simp only [contentOf, adopt, get?_update, if_neg hne, hplant]
  split
  · cases t.get? i <;> rfl
  · rfl

theorem text?_adopt_of_lt (p : NodeId) (content : Node) (hi : i < t.nodes.size) :
    (t.adopt p content).text? i = t.text? i := by
  rw [text?_eq, contentOf_adopt_of_lt p content hi, ← text?_eq]

theorem text?_adopt_new {p : NodeId} (hp : p < t.nodes.size) (content : Node) :
    (t.adopt p content).text? t.nodes.size =
      if content.isText then some content.value else none := by
  rw [text?_eq, contentOf_adopt hp, if_pos rfl]
  rfl

end Siblings

end Tree

namespace Reader

open BookMarkup.Tree

theorem keepsBlank_iff {t : Tree} {p : NodeId} (hp : p < t.nodes.size) {closing : Bool} :
    keepsBlank t p closing = true ↔ (closing = true ∧ t.childrenOf p = []) ∨
      (∃ i ∈ (t.childrenOf p).head?, ∃ v, t.text? i = some v) ∨
      ∃ i ∈ (t.childrenOf p).getLast?, ∃ v, t.text? i = some v := by
  obtain ⟨n, hn⟩ := Option.isSome_iff_exists.1 (get?_isSome_iff.2 hp)
  rw [keepsBlank, hn, childrenOf_of_get? hn]
  simp only [Bool.or_eq_true, Bool.and_eq_true, List.isEmpty_iff, Option.any_eq_true, isText_iff,
    or_assoc, Option.mem_def]

/-- After markup, a blank run is kept only if it is all there is or another text leads. -/
theorem led_of_keepsBlank {free : Prop} {t : Tree} {p i : NodeId} {closing : Bool}
    (hp : p < t.nodes.size) (hg : Growing free t (t.childrenOf p)) (hi : i ∉ t.childrenOf p)
    (hk : keepsBlank t p closing = true) :
    closing = true ∧ t.childrenOf p = [] ∨ LedByText t (t.childrenOf p) i := by
  rcases (keepsBlank_iff hp).1 hk with h | ⟨j, hj, v, hv⟩ | ⟨j, hj, v, hv⟩
  · exact .inl h
  · obtain ⟨rest, hr⟩ := List.head?_eq_some_iff.1 hj
    refine .inr ⟨j, rest, v, hr, ?_, hv⟩
    rintro rfl
    exact hi (hr ▸ List.mem_cons_self)
  · rw [hg.last j hj] at hv
    simp at hv

end Reader

end BookMarkup
