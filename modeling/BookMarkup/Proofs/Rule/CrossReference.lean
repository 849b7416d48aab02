import BookMarkup.Proofs.Rule.Paragraph
import BookMarkup.Rule.CrossReference

/-!
The label of one cross-reference on a proper tree. It is a new text right before the reference, which
has such a place unless it is the root. What later rules need of a tree with all labels is that each
new node is such a text, and that nothing else has changed.
-/

namespace BookMarkup.Rule

open BookMarkup.Tree

/-- What the later rules need of the tree `u` that labelling makes of `t`. -/
structure Labelled (t u : Tree) : Prop where
  proper : Proper u
  root : u.root = t.root
  kept : Kept exchangedTags touchedNames t u
  made : Made t u
  contentOf : ∀ i < t.nodes.size, u.contentOf i = t.contentOf i
  parentOf : ∀ i < t.nodes.size, u.parentOf i = t.parentOf i
  new : ∀ i, t.nodes.size ≤ i → i < u.nodes.size → IsText u i ∧
    ∃ x p, u.tag? x = some "xref" ∧ [i, x] <:+: u.childrenOf p

section Labelled

variable {t u : Tree}

theorem Labelled.thinned (h : Labelled t u) (ht : Proper t) :
    Thinned t u ∧ ∀ i < t.nodes.size, u.Live i ↔ t.Live i :=
  Thinned.of_parentOf ht h.proper h.root h.kept h.made h.parentOf

theorem Labelled.movesOnly (h : Labelled t u) (ht : Proper t) : MovesOnly (fun _ => False) t u :=
  ⟨(h.thinned ht).1, h.contentOf, fun i hi _ _ => h.parentOf i hi⟩

end Labelled

/-- The root of the tree is a reference that names a target. -/
def RootReference (t : Tree) (r : NodeId) : Prop :=
  t.root = some r ∧ t.tag? r = some "xref" ∧ ∃ value, t.attribute? r "linkend" = some value

/-! ### One reference -/

section Reference

variable {t : Tree} (h : Proper t) (nodes : List Node) {x : NodeId}

theorem run_labelReference_of_none (hl : t.attribute? x "linkend" = none) :
    (labelReference nodes x).run t = .ok 0 t := by
  simp only [labelReference, EStateM.run_bind, EStateM.run_get, hl]
  rfl

variable {value : String} (hl : t.attribute? x "linkend" = some value)

include h hl

theorem run_labelReference {p : NodeId} (hp : t.parentOf x = some p) :
    (labelReference nodes x).run t = .ok 1 (planted t p ((t.childrenOf p).idxOf x)
      (Node.text (labelFor ((target? nodes value).bind Node.tag?) ++ " "))) := by
  simp only [labelReference, EStateM.run_bind, EStateM.run_get, hl, run_create,
    run_insertBefore_new h _ hp, EStateM.run_pure]

/-- There is no place before the root. -/
theorem run_labelReference_of_root (hr : t.root = some x) :
    ∃ t', (labelReference nodes x).run t = .error (.fault (.detached x)) t' := by
  have hx := h.forest.root_lt hr
  simp only [labelReference, EStateM.run_bind, EStateM.run_get, hl, run_create]
  generalize Node.text (labelFor ((target? nodes value).bind Node.tag?) ++ " ") = label
  refine ⟨(t.plant label).detached t.nodes.size, ?_⟩
  have hxu : x < (t.plant label).nodes.size := by
    rw [size_plant]
    exact Nat.lt_succ_of_lt hx
  rw [Edit.insertBefore, run_insertBeside (h.forest.plant _) 0 (Nat.ne_of_lt hx), if_pos (by simp),
    if_pos hxu, parentOf_plant, h.top hr]

end Reference

end BookMarkup.Rule
