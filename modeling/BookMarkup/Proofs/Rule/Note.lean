import BookMarkup.Proofs.Rule.Vocabulary
import BookMarkup.Rule.Listing

/-!
Labels that the rules for listings make, and the note that they carry from a role to the element
around a listing. No other attributes are touched than the two.
-/

namespace BookMarkup.Rule

open BookMarkup.Tree

def roleless (n : Node) : Node :=
  { n with attributes := n.attributes.erase "role" }

def annotated (n : Node) : Node :=
  { n with attributes := n.attributes.insert "annotations" "below" }

def named (tag : String) (n : Node) : Node :=
  { n with name := tag }

theorem roleless_roleless (n : Node) : roleless (roleless n) = roleless n := by
  simp [roleless, Attributes.erase_eq_without, Attributes.without]

theorem annotated_annotated (n : Node) : annotated (annotated n) = annotated n := by
  simp [annotated, Attributes.insert_insert]

def asksNote (t : Tree) (i : NodeId) : Bool :=
  (t.attribute? i "role").any (Text.hasToken · "long-annotations")

def noteIf (asked : Bool) : Node → Node :=
  if asked then annotated else id

theorem noteIf_eq (asked : Bool) : noteIf asked = id ∨ noteIf asked = annotated := by
  cases asked
  · exact .inl rfl
  · exact .inr rfl

theorem tag?_noteIf (asked : Bool) (n : Node) : (noteIf asked n).tag? = n.tag? := by
  cases asked <;> rfl

theorem asksNote_congr {t t' : Tree} {i : NodeId} (h : t'.contentOf i = t.contentOf i) :
    asksNote t' i = asksNote t i := by
  rw [asksNote, attribute?_eq, h, ← attribute?_eq, asksNote]

/-- The tree `t'` is `t` without the role of `source`; there may be a note on `wrapper`. -/
structure Propagated (source wrapper : NodeId) (t t' : Tree) : Prop where
  relabelled : Relabelled t t'
  contentOf : ∃ note, (note = id ∨ note = annotated) ∧ ∀ i, t'.contentOf i =
    (t.contentOf i).map (if i = wrapper then note else if i = source then roleless else id)

theorem run_propagateAnnotations {t : Tree} (h : Proper t) {source wrapper : NodeId}
    (hs : source < t.nodes.size) (hw : wrapper < t.nodes.size) (hne : wrapper ≠ source) :
    ∃ t', (propagateAnnotations source wrapper).run t = .ok () t' ∧ Relabelled t t' ∧
      ∀ i, t'.contentOf i = (t.contentOf i).map
        (if i = wrapper then noteIf (asksNote t source)
          else if i = source then roleless else id) := by
  obtain ⟨n, hn⟩ := Option.isSome_iff_exists.1 (get?_isSome_iff.2 hs)
  have hrole : t.attribute? source "role" = n.attribute? "role" := by
    rw [attribute?, hn, Option.bind_some]
  have hr := Relabelled.update_attributes h source fun a => a.erase "role"
  have hc := contentOf_update (Node.relabels_attributes fun a => a.erase "role") t source
  -- Without a note only the role is gone.
  have hplain (hnote : asksNote t source = false) (i : NodeId) :
      (t.update source fun n => { n with attributes := n.attributes.erase "role" }).contentOf i =
        (t.contentOf i).map
          (if i = wrapper then noteIf (asksNote t source)
            else if i = source then roleless else id) := by
    rw [hc, hnote]
    by_cases hi : i = source
    · subst hi
      rw [if_pos rfl, if_neg hne.symm, if_pos rfl]
      rfl
    · rw [if_neg (Ne.symm hi), if_neg hi, noteIf, if_neg Bool.false_ne_true, ite_self, Option.map_id]
      rfl
  simp only [propagateAnnotations, EStateM.run_bind, run_removeAttribute, hn]
  cases hattr : n.attribute? "role" with
  | none => exact ⟨_, rfl, hr, hplain (by rw [asksNote, hrole, hattr]; rfl)⟩
  | some role =>
      have hasks : asksNote t source = Text.hasToken role "long-annotations" := by
        rw [asksNote, hrole, hattr]
        rfl
      simp only
      split
      · next htoken =>
        have hr' := Relabelled.update_attributes hr.proper wrapper
          fun a => a.insert "annotations" "below"
        refine ⟨_, ?_, hr.trans hr', fun i => ?_⟩
        · rw [Edit.setAttribute, run_change, if_pos (by simpa using hw)]
        · rw [contentOf_update (Node.relabels_attributes fun a => a.insert "annotations" "below"),
            hc, hasks, htoken]
          by_cases hi : i = wrapper
          · subst hi
            rw [if_pos rfl, if_neg hne.symm, if_pos rfl]
            rfl
          · rw [if_neg (Ne.symm hi), if_neg hi]
            by_cases hi : i = source
            · subst hi
              rw [if_pos rfl, if_pos rfl]
              rfl
            · rw [if_neg (Ne.symm hi), if_neg hi, Option.map_id]
              rfl
      · next htoken => exact ⟨_, rfl, hr, hplain (by rwa [hasks, ← Bool.not_eq_true])⟩

section Propagated

variable {t t' : Tree} {source wrapper : NodeId}

theorem Propagated.exists_contentOf (h : Propagated source wrapper t t') {i : NodeId} {n : Node}
    (hn : t.contentOf i = some n) : ∃ a, t'.contentOf i = some { n with attributes := a } ∧
      (a = n.attributes ∨ a = n.attributes.erase "role" ∨
        a = n.attributes.insert "annotations" "below") := by
  obtain ⟨note, hnote, hc⟩ := h.contentOf
  rw [hc, hn, Option.map_some]
  split
  · rcases hnote with rfl | rfl
    · exact ⟨_, rfl, .inl rfl⟩
    · exact ⟨_, rfl, .inr (.inr rfl)⟩
  · split
    · exact ⟨_, rfl, .inr (.inl rfl)⟩
    · exact ⟨_, rfl, .inl rfl⟩

theorem Propagated.kept (h : Propagated source wrapper t t') : Kept [] touchedNames t t' := by
  refine .of_attributes fun i n hn => ?_
  obtain ⟨a, ha, rfl | rfl | rfl⟩ := h.exists_contentOf hn
  · exact ⟨_, ha, fun _ _ => rfl⟩
  · exact ⟨_, ha, fun name hname =>
      Attributes.get?_erase_of_ne (ne_of_mem_of_not_mem (by decide) hname).symm⟩
  · exact ⟨_, ha, fun name hname =>
      Attributes.get?_insert_of_ne (ne_of_mem_of_not_mem (by decide) hname).symm _⟩

end Propagated

end BookMarkup.Rule
