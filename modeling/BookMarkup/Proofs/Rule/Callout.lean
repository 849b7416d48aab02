import BookMarkup.Proofs.Rule.Move
import BookMarkup.Rule.Listing

/-!
One step of the rule for callouts on proper trees: it always succeeds, and the list of callouts may
get a new parent, the element right before it.
-/

namespace BookMarkup.Rule

open BookMarkup.Tree

def earlier (t : Tree) (i : NodeId) : List NodeId :=
  match t.parentOf i with
  | none => []
  | some p => (t.childrenOf p).take ((t.childrenOf p).idxOf i)

theorem earlier_eq {t : Tree} (h : Proper t) {p i : NodeId} {before after : List NodeId}
    (hc : t.childrenOf p = before ++ i :: after) : earlier t i = before := by
  obtain ⟨hp, hi, -⟩ := h.forest.of_childrenOf_eq hc
  rw [earlier, hp]
  simp only
  rw [hc, List.idxOf_append_of_notMem hi, List.idxOf_cons_self, Nat.add_zero, List.take_left]

theorem run_previousSibling? {t : Tree} (h : Proper t) {i : NodeId} (hi : i < t.nodes.size) :
    (Edit.ask (·.previousSibling? i)).run t = .ok (earlier t i).getLast? t := by
  rw [run_ask, h.forest.previousSibling?_eq, if_pos hi, earlier]
  cases t.parentOf i <;> rfl

def isExample (t : Tree) (i : NodeId) : Bool :=
  (t.tag? i).any fun tag => "example".toList.isSuffixOf tag.toList

def hostOf (t : Tree) (list : NodeId) : Option NodeId :=
  (earlier t list).getLast?.filter (isExample t)

theorem pair_of_getLast?_earlier {t : Tree} (h : Proper t) {prev i : NodeId}
    (hprev : (earlier t i).getLast? = some prev) :
    ∃ p, t.parentOf i = some p ∧ [prev, i] <:+: t.childrenOf p := by
  cases hp : t.parentOf i with
  | none => simp [earlier, hp] at hprev
  | some p =>
      obtain ⟨before, after, hc⟩ := List.append_of_mem (h.forest.mem_childrenOf.2 hp)
      rw [earlier_eq h hc] at hprev
      obtain ⟨front, rfl⟩ := List.getLast?_eq_some_iff.1 hprev
      exact ⟨p, rfl, front, after, by simp [hc]⟩

/-- A list of callouts right after a listing becomes its last child; any other stays where it is. -/
theorem run_attachCallouts {t : Tree} (h : Proper t) {list : NodeId} (hl : list < t.nodes.size) :
    (hostOf t list = none ∧ (attachCallouts list).run t = .ok 0 t) ∨
    ∃ w t', hostOf t list = some w ∧ (attachCallouts list).run t = .ok 1 t' ∧ Rearranged t t' ∧
      t'.nodes.size = t.nodes.size ∧ (∀ i, t'.contentOf i = t.contentOf i) ∧
      (∀ i, t'.parentOf i = if i = list then some w else t.parentOf i) ∧
      ∀ i, t'.childrenOf i =
        (t.childrenOf i).filter (· ≠ list) ++ if i = w then [list] else [] := by
  simp only [attachCallouts, EStateM.run_bind, run_previousSibling? h hl]
  cases hlast : (earlier t list).getLast? with
  | none => exact .inl ⟨by rw [hostOf, hlast]; rfl, rfl⟩
  | some prev =>
      obtain ⟨p, hp, hpair⟩ := pair_of_getLast?_earlier h hlast
      have hprev : t.parentOf prev = some p := h.forest.mem_childrenOf.1 (hpair.subset (by simp))
      have hne : prev ≠ list := by
        have hd := hpair.sublist.nodup (h.forest.nodup_childrenOf p)
        simpa using hd
      simp only [EStateM.run_bind, EStateM.run_get]
      cases ht : t.tag? prev with
      | none => exact .inl ⟨by simp [hostOf, hlast, isExample, ht], rfl⟩
      | some tag =>
          have hhost : hostOf t list =
              if "example".toList.isSuffixOf tag.toList then some prev else none := by
            rw [hostOf, hlast, Option.filter_some, isExample, ht, Option.any_some]
          simp only
          by_cases hsuffix : "example".toList.isSuffixOf tag.toList = true
          · have hland : isLandmark tag = false := by
              rw [isLandmark, hsuffix, Bool.not_true, Bool.and_false]
            obtain ⟨t', hrun, hr, hsize, hcont, hpar, hchild⟩ :=
              run_appendChild_sibling h hprev hp hne ht hland
            refine .inr ⟨prev, t', by rw [hhost, if_pos hsuffix], ?_, hr, hsize, hcont, hpar,
              hchild⟩
            simp only [if_pos hsuffix, EStateM.run_bind, hrun, EStateM.run_pure]
          · exact .inl ⟨by rw [hhost, if_neg hsuffix], by rw [if_neg hsuffix]; rfl⟩

end BookMarkup.Rule
