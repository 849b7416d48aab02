import BookMarkup.Proofs.Rule.LooseContent
import BookMarkup.Proofs.Rule.Rested

/-!
Running the rules once more. What a run leaves is at rest, if there is nothing in it for the rules to
move and no reference has a target name; then the next run leaves a copy.
-/

namespace BookMarkup.Rule

open BookMarkup.Tree

namespace Stages

variable {t t' : Tree} (s : Stages t t')

include s

theorem of_tag? {i : NodeId} {tag : String} (hl : t'.Live i) (ht : t'.tag? i = some tag)
    (hn : (tag ∉ exchangedTags ∧ tag ∉ madeTags) ∧
      tag ∉ bookTags.map Prod.fst ∧ tag ∉ bookTags.map Prod.snd) :
    t.Live i ∧ t.tag? i = some tag := by
  obtain ⟨hl₁, ht₁⟩ := s.thinned_renamed.live_of_tag? hl ht hn.1.1 hn.1.2
  have hl₀ : t.Live i := s.opening.relabelled.live_iff.1 hl₁
  rw [s.opening.tag?_eq hl₀, Option.map_eq_some_iff] at ht₁
  obtain ⟨old, hold, hnew⟩ := ht₁
  exact ⟨hl₀, hold.trans (congrArg some ((bookTag_eq_iff hn.2.1 hn.2.2).1 hnew))⟩

theorem linkend_eq {x : NodeId} (hl : t'.Live x) (hx : t'.tag? x = some "xref") :
    t.Live x ∧ t.tag? x = some "xref" ∧ t'.attribute? x "linkend" = t.attribute? x "linkend" := by
  obtain ⟨hl₀, hx₀⟩ := s.of_tag? hl hx (by decide)
  obtain ⟨_, hx₁⟩ := s.thinned_renamed.live_of_tag? hl hx (by decide) (by decide)
  refine ⟨hl₀, hx₀, ?_⟩
  rw [s.thinned_renamed.kept.attribute?_eq (lt_size_of_tag? hx₁) (by decide),
    s.opening.attribute?_eq hl₀]

/-- The rule for introductions gives every part one, and no later rule takes it away. -/
theorem hasIntro {p : NodeId} (hl : t'.Live p) (hp : t'.tag? p = some "part") : HasIntro t' p := by
  obtain ⟨hl₃, hp₃⟩ := s.thinned_opened.live_of_tag? hl hp (by decide) (by decide)
  obtain ⟨hl₁₀, hp₁₀⟩ := s.movesOnly_flattened.thinned.live_of_tag? hl hp (by decide) (by decide)
  obtain ⟨c, hc, hct⟩ := s.open'.introduced p hl₃ hp₃
  have htag : t'.tag? c = some "partintro" :=
    (s.thinned_opened.kept.tag?_iff (lt_size_of_tag? hct) (by decide)).2 hct
  have hc₁₀ := (s.parentOf_part_iff hl hp hct (by decide) (by decide)).2 hc
  have hcs := lt_size_of_parentOf hc₁₀
  have hct₁₀ : s.flattened.tag? c = some "partintro" :=
    (s.movesOnly_flattened.tag?_eq hcs).symm.trans htag
  have hct₁₁ : s.quoted.tag? c = some "partintro" := (s.quote.movesOnly.tag?_eq hcs).trans hct₁₀
  have hlc : s.quoted.Live c :=
    (s.quote.rearranged.live_iff s.flatten.movesOnly.thinned.proper hcs).2 (hl₁₀.child hc₁₀)
  have hc₁₁ : s.quoted.parentOf c = some p :=
    (s.quote.movesOnly.parentOf c hcs hlc (by simp [hct₁₀])).trans hc₁₀
  exact ⟨c, s.finish.parentOf_child (s.quote.movesOnly.thinned.kept.lt (lt_size_of_tag? hp₁₀)) hl hc₁₁
    (by simp [hct₁₁]), htag⟩

theorem rested (hu : Undisturbed t')
    (hx : ∀ x, t.Live x → t.tag? x = some "xref" → t.attribute? x "linkend" = none) :
    Rested t' where
  toInSchema := s.inSchema
  toUndisturbed := hu
  introduced _ := s.hasIntro
  listed _ _ hl hc hp := (s.parentOf_code hl hc hp).2.2.2
  lines _ _ hl ha := s.isLine hl ha
  unlabelled x hl ht := by
    obtain ⟨hl₀, hx₀, he⟩ := s.linkend_eq hl ht
    rw [he, hx x hl₀ hx₀]

end Stages

end BookMarkup.Rule
