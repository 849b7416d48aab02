import BookMarkup.Proofs.Attributes
import BookMarkup.Proofs.Tree.Outcome

/-!
Where a renamed attribute comes to stand among the others. Its place is the index that it had, but
this index is taken before another attribute with the new name goes. Main statement: the renamed
attribute stays in its place if the new name does not stand before it; otherwise it changes places
with the attribute after it, and the last attribute has no place to go to.
-/

namespace BookMarkup.Tree

theorem renameAttribute_place {t : Tree} {id : NodeId} {n : Node} (hn : t.get? id = some n)
    {old value : String} {before after : List (String × String)}
    (he : n.attributes.entries = before ++ (old, value) :: after) (new : String) :
    (new ∉ before.map Prod.fst → ∃ a : Attributes,
      (Edit.renameAttribute id old new).run t =
        .ok true (t.update id fun n => { n with attributes := a }) ∧
      a.entries = before ++ (new, value) :: after.filter (·.1 ≠ new)) ∧
    (new ∈ before.map Prod.fst → ∀ next rest, after = next :: rest → ∃ a : Attributes,
      (Edit.renameAttribute id old new).run t =
        .ok true (t.update id fun n => { n with attributes := a }) ∧
      a.entries = before.filter (·.1 ≠ new) ++ next :: (new, value) :: rest) ∧
    (new ∈ before.map Prod.fst → after = [] →
      (Edit.renameAttribute id old new).run t =
        .error (.misuse (.misplacedAttribute id old)) t) := by
  refine ⟨fun hnew => ?_, fun hnew next rest hafter => ?_, fun hnew hafter => ?_⟩
  · obtain ⟨a, ha, hentries⟩ := Attributes.rename_of_notMem he hnew
    exact ⟨a, by simp only [run_renameAttribute, hn, ha], hentries⟩
  · obtain ⟨a, ha, hentries⟩ := (Attributes.rename_of_mem he hnew).2 next rest hafter
    exact ⟨a, by simp only [run_renameAttribute, hn, ha], hentries⟩
  · have ha := (Attributes.rename_of_mem he hnew).1 hafter
    simp only [run_renameAttribute, hn, ha]

def threefold : Node :=
  { Node.element "a" with attributes := ⟨[("x", "1"), ("y", "2"), ("z", "3")], by decide⟩ }

/-- The second attribute gets the name of the third one, which goes. -/
theorem renameAttribute_place_of_later :
    let t : Tree := { nodes := #[threefold] }
    t.get? 0 = some threefold ∧
      threefold.attributes.entries = [("x", "1")] ++ ("y", "2") :: [("z", "3")] ∧
      ∃ a : Attributes, (Edit.renameAttribute 0 "y" "z").run t =
          .ok true (t.update 0 fun n => { n with attributes := a }) ∧
        a.entries = [("x", "1"), ("z", "2")] :=
  have hn : (Tree.mk #[threefold] none).get? 0 = some threefold := rfl
  have he : threefold.attributes.entries = [("x", "1")] ++ ("y", "2") :: [("z", "3")] := rfl
  ⟨hn, he, (renameAttribute_place hn he "z").1 (by decide)⟩

/-- The second attribute gets the name of the first one, and the third one comes before it. -/
theorem renameAttribute_displaced :
    let t : Tree := { nodes := #[threefold] }
    ∃ t', (Edit.renameAttribute 0 "y" "x").run t = .ok true t' ∧
      (t'.get? 0).map (·.attributes.entries) = some [("z", "3"), ("x", "2")] :=
  ⟨_, rfl, by decide⟩

end BookMarkup.Tree
