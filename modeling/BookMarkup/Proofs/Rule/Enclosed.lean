import BookMarkup.Proofs.Rule.Move

/-!
Rules that put a new element around each of some nodes, unless what is around it will do. The rules
for listings and for quotations are of this kind; they differ in the element that they make and in
what will do. The loop is told here by parents alone, with no regard to the places among siblings.
-/

namespace BookMarkup.Rule

open BookMarkup.Tree

structure Enclosed (tag : String) (t : Tree) (b p : NodeId) (t' : Tree) : Prop where
  rearranged : Rearranged t t'
  size : t'.nodes.size = t.nodes.size + 1
  tag?_new : t'.tag? t.nodes.size = some tag
  outer : t.parentOf b = some p
  parentOf : ∀ i, t'.parentOf i =
    if i = b then some t.nodes.size else if i = t.nodes.size then some p else t.parentOf i

/-- The tree `u` is what a loop over the nodes `ids` makes of `t` before it comes to `rest`: a node
that it has passed has a parent that will do, or a new one between it and its old one. -/
structure Enclosing (tag : String) (suits : Option String → Bool) (t : Tree)
    (ids rest : List NodeId) (u : Tree) : Prop where
  rearranged : Rearranged t u
  suits_eq : ∀ i < t.nodes.size, suits (u.tag? i) = suits (t.tag? i)
  parentOf : ∀ i < t.nodes.size, (i ∈ ids → i ∈ rest) → u.parentOf i = t.parentOf i
  passed : ∀ b ∈ ids, b ∉ rest →
    (u.parentOf b = t.parentOf b ∧ ∀ p, t.parentOf b = some p → suits (t.tag? p) = true) ∨
    ∃ p w, t.parentOf b = some p ∧ suits (t.tag? p) = false ∧ t.nodes.size ≤ w ∧
      u.parentOf b = some w ∧ u.parentOf w = some p
  new : ∀ w, t.nodes.size ≤ w → w < u.nodes.size →
    u.tag? w = some tag ∧ ∃ b ∈ ids, b ∉ rest ∧ u.parentOf b = some w

section Enclosing

variable {tag : String} {suits : Option String → Bool} {t u u' : Tree} {ids rest : List NodeId}
  {b p : NodeId}

theorem Enclosing.refl (h : Proper t) (ids : List NodeId) : Enclosing tag suits t ids ids t where
  rearranged := .refl h
  suits_eq _ _ := rfl
  parentOf _ _ _ := rfl
  passed _ hb hn := absurd hb hn
  new _ hw hlt := absurd hlt (Nat.not_lt.2 hw)

/-- Nothing is done for a node without parent, or with one that will do. -/
theorem Enclosing.skip (ht : Proper t) (h : Enclosing tag suits t ids (b :: rest) u)
    (hb : b < t.nodes.size) (hs : ∀ p, u.parentOf b = some p → suits (u.tag? p) = true) :
    Enclosing tag suits t ids rest u where
  rearranged := h.rearranged
  suits_eq := h.suits_eq
  parentOf i hi hir := h.parentOf i hi fun hm => List.mem_cons_of_mem b (hir hm)
  passed c hc hcr := by
    by_cases hcb : c = b
    · subst hcb
      have hsame := h.parentOf c hb fun _ => List.mem_cons_self
      refine .inl ⟨hsame, fun p hp => ?_⟩
      rw [← h.suits_eq p (ht.forest.parent_lt hp)]
      exact hs p (hsame.trans hp)
    · exact h.passed c hc fun hm => (List.mem_cons.1 hm).elim hcb hcr
  new w hw hlt := by
    obtain ⟨hwt, c, hc, hcr, hcw⟩ := h.new w hw hlt
    exact ⟨hwt, c, hc, fun hm => hcr (List.mem_cons_of_mem b hm), hcw⟩

theorem Enclosing.step (ht : Proper t) (hids : ∀ i ∈ ids, i < t.nodes.size)
    (h : Enclosing tag suits t ids (b :: rest) u) (hb : b ∈ ids) (hbr : b ∉ rest)
    (he : Enclosed tag u b p u') (hmade : tag ∈ madeTags) (hs : suits (u.tag? p) = false)
    (hsuits : ∀ i < u.nodes.size, suits (u'.tag? i) = suits (u.tag? i)) :
    Enclosing tag suits t ids rest u' := by
  have hbt := hids b hb
  have hle {i : NodeId} (hi : i < t.nodes.size) : i < u.nodes.size := h.rearranged.kept.lt hi
  have hbp : t.parentOf b = some p :=
    (h.parentOf b hbt fun _ => List.mem_cons_self).symm.trans he.outer
  have hsame {i : NodeId} (hi : i < u.nodes.size) (hib : i ≠ b) :
      u'.parentOf i = u.parentOf i := by
    rw [he.parentOf, if_neg hib, if_neg (Nat.ne_of_lt hi)]
  refine ⟨h.rearranged.trans he.rearranged, fun i hi => ?_, fun i hi hir => ?_,
    fun c hc hcr => ?_, fun w hw hlt => ?_⟩
  · rw [hsuits i (hle hi), h.suits_eq i hi]
  · have hib : i ≠ b := by
      rintro rfl
      exact hbr (hir hb)
    rw [hsame (hle hi) hib, h.parentOf i hi fun hm => List.mem_cons_of_mem b (hir hm)]
  · by_cases hcb : c = b
    · subst hcb
      refine .inr ⟨p, u.nodes.size, hbp, ?_, ?_, ?_, ?_⟩
      · rw [← h.suits_eq p (ht.forest.parent_lt hbp), hs]
      · by_contra hlt
        exact Nat.lt_irrefl _ (hle (Nat.lt_of_not_le hlt))
      · rw [he.parentOf, if_pos rfl]
      · rw [he.parentOf, if_neg (Nat.ne_of_gt (hle hbt)), if_pos rfl]
    · have hcu := hle (hids c hc)
      refine (h.passed c hc fun hm => (List.mem_cons.1 hm).elim hcb hcr).imp ?_ ?_
      · rintro ⟨hp, hall⟩
        exact ⟨(hsame hcu hcb).trans hp, hall⟩
      · rintro ⟨q, w, hq, hqs, hw, hcw, hwq⟩
        have hwb : w ≠ b := Nat.ne_of_gt (Nat.lt_of_lt_of_le hbt hw)
        exact ⟨q, w, hq, hqs, hw, (hsame hcu hcb).trans hcw,
          (hsame (lt_size_of_parentOf hwq) hwb).trans hwq⟩
  · by_cases hwu : w < u.nodes.size
    · obtain ⟨hwt, c, hc, hcr, hcw⟩ := h.new w hw hwu
      have hcb : c ≠ b := by
        rintro rfl
        exact hcr List.mem_cons_self
      exact ⟨(he.rearranged.kept.tag?_iff hwu (not_mem_exchangedTags_of_made hmade)).2 hwt, c, hc,
        fun hm => hcr (List.mem_cons_of_mem b hm), (hsame (hle (hids c hc)) hcb).trans hcw⟩
    · obtain rfl : w = u.nodes.size := by
        rw [he.size] at hlt
        omega
      refine ⟨he.tag?_new, b, hb, hbr, ?_⟩
      rw [he.parentOf, if_pos rfl]

/-- A node that has got a new parent is below its old one by two links. -/
theorem Enclosing.parentOf_new (ht : Proper t) (h : Enclosing tag suits t ids [] u) {w : NodeId}
    (hb : b ∈ ids) (hw : t.nodes.size ≤ w) (hbw : u.parentOf b = some w) :
    ∃ p, t.parentOf b = some p ∧ u.parentOf w = some p := by
  rcases h.passed b hb List.not_mem_nil with ⟨hp, _⟩ | ⟨p, w', hp, _, _, hbw', hwp⟩
  · rw [hbw, eq_comm] at hp
    exact absurd (ht.forest.parent_lt hp) (Nat.not_lt.2 hw)
  · rw [hbw, Option.some.injEq] at hbw'
    exact ⟨p, hp, hbw' ▸ hwp⟩

end Enclosing

end BookMarkup.Rule
