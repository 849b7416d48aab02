import BookMarkup.Proofs.Text.Cut
import BookMarkup.Proofs.Text.Trim
import BookMarkup.Proofs.Tree.Outcome
import BookMarkup.Proofs.Tree.Order

/-!
What selectors accept and find. A path is accepted if no name in it is blank, and otherwise it is
refused as a whole. A node is accepted by a climb: the last step tells of the node, the step before it
of its parent, and so on, so that what is above a node decides. What is found are the live nodes that
are accepted, in document order.
-/

namespace BookMarkup

theorem Tree.run_select {path : String} {s : Selector} (hs : Selector.parse path = .ok s)
    (t : Tree) : (Edit.select path).run t = .ok (s.select t) t := by
  simp only [Edit.select, EStateM.run, hs]

namespace Selector

open BookMarkup.Tree

/-! ### Paths -/

/-- No name in the path is blank. Slashes divide the steps, and bars the names in a step. -/
def Filled (path : String) : Prop :=
  ∀ step ∈ path.toList.splitOn '/', ∀ name ∈ step.splitOn '|', name.all Text.isSpace = false

theorem names_eq (path : String) : names path = (path.toList.splitOn '/').map fun step =>
    (step.splitOn '|').map fun name => Text.trim (String.ofList name) := by
  simp only [names, Text.pieces_eq_splitOn]

theorem filled_iff {path : String} :
    Filled path ↔ (names path).any (·.contains "") = false := by
  simp only [names_eq, Filled, List.any_map, List.any_eq_false, Function.comp_apply,
    List.contains_iff_mem, List.mem_map, not_exists, not_and, Text.trim_eq_empty_iff, Text.isBlank,
    String.toList_ofList, Bool.not_eq_true]

theorem parse_of_filled {path : String} (h : Filled path) : parse path = .ok ⟨names path⟩ := by
  rw [parse]
  simp only [filled_iff.1 h]
  rfl

theorem parse_of_not_filled {path : String} (h : ¬ Filled path) : parse path = .error ⟨path⟩ := by
  rw [parse]
  simp only [Bool.not_eq_false _ ▸ mt filled_iff.2 h]
  rfl

theorem parse_of_names {path : String} {steps : List (List String)} (hn : names path = steps)
    (hs : steps.any (·.contains "") = false) : parse path = .ok ⟨steps⟩ := by
  simp only [parse, hn, hs]
  rfl

theorem flatten_names {path : String} {step : List String} (h : parse path = .ok ⟨[step]⟩) :
    (names path).flatten = step := by
  rw [parse] at h
  split at h
  · simp at h
  · simp only [Except.ok.injEq, Selector.mk.injEq] at h
    simp [h]

/-! ### Climbs -/

@[simp] theorem climbs_nil (t : Tree) (i : Option NodeId) : climbs t [] i = true := by
  cases i <;> rfl

theorem climbs_cons_iff {t : Tree} {step : List String} {steps : List (List String)}
    {o : Option NodeId} :
    climbs t (step :: steps) o = true ↔
      ∃ i, o = some i ∧ ∃ tag, t.tag? i = some tag ∧ tag ∈ step ∧
        climbs t steps (t.parentOf i) = true := by
  cases o with
  | none => simp [climbs]
  | some i =>
      simp only [Option.some.injEq, exists_eq_left']
      rw [climbs, tag?, parentOf]
      cases t.get? i with
      | none => simp
      | some n => by_cases he : n.isElement <;> simp [Node.tag?, he]

/-- Each step tells of the node that many parents up. -/
theorem climbs_iff {t : Tree} {steps : List (List String)} {o : Option NodeId} :
    climbs t steps o = true ↔ ∀ k step, steps[k]? = some step →
      ∃ a tag, o.bind (t.ascend k) = some a ∧ t.tag? a = some tag ∧ tag ∈ step := by
  induction steps generalizing o with
  | nil => simp
  | cons step steps ih =>
      rw [climbs_cons_iff]
      constructor
      · rintro ⟨i, rfl, tag, ht, hm, hc⟩ k step' hk
        cases k with
        | zero =>
            obtain rfl : step = step' := by simpa using hk
            exact ⟨i, tag, rfl, ht, hm⟩
        | succ k => exact ih.1 hc k step' (by simpa using hk)
      · intro h
        obtain ⟨i, tag, hi, ht, hm⟩ := h 0 step rfl
        obtain ⟨i, rfl, hi⟩ := Option.bind_eq_some_iff.1 hi
        obtain rfl := Option.some.inj hi
        exact ⟨i, rfl, tag, ht, hm, ih.2 fun k step' hk => h (k + 1) step' (by simpa using hk)⟩

theorem accepts_iff {t : Tree} {s : Selector} {i : NodeId} :
    s.accepts t i = true ↔ ∀ k step, s.steps.reverse[k]? = some step →
      ∃ a tag, t.ascend k i = some a ∧ t.tag? a = some tag ∧ tag ∈ step :=
  climbs_iff

theorem accepts_one_iff {t : Tree} {names : List String} {i : NodeId} :
    (Selector.mk [names]).accepts t i = true ↔ ∃ tag, t.tag? i = some tag ∧ tag ∈ names := by
  simp [accepts, climbs_cons_iff]

theorem accepts_two_iff {t : Tree} {outer names : List String} {i : NodeId} :
    (Selector.mk [outer, names]).accepts t i = true ↔
      ∃ tag, t.tag? i = some tag ∧ tag ∈ names ∧
        ∃ p, t.parentOf i = some p ∧ ∃ tag', t.tag? p = some tag' ∧ tag' ∈ outer := by
  simp [accepts, climbs_cons_iff]

theorem accepts_three_iff {t : Tree} {top outer names : List String} {i : NodeId} :
    (Selector.mk [top, outer, names]).accepts t i = true ↔
      ∃ tag, t.tag? i = some tag ∧ tag ∈ names ∧
        ∃ p, t.parentOf i = some p ∧ ∃ tag', t.tag? p = some tag' ∧ tag' ∈ outer ∧
          ∃ q, t.parentOf p = some q ∧ ∃ tag'', t.tag? q = some tag'' ∧ tag'' ∈ top := by
  simp [accepts, climbs_cons_iff]

/-- What is above a node, itself included, decides whether a selector accepts it. -/
theorem accepts_congr {t t' : Tree} (s : Selector) {i : NodeId}
    (h : ∀ j, Within t i j → t'.tag? j = t.tag? j ∧ t'.parentOf j = t.parentOf j) :
    s.accepts t' i = s.accepts t i := by
  rw [accepts, accepts]
  generalize s.steps.reverse = steps
  have above {o : Option NodeId} (ho : ∀ k, o = some k → Within t i k) :
      climbs t' steps o = climbs t steps o := by
    induction steps generalizing o with
    | nil => simp
    | cons step steps ih =>
        rw [Bool.eq_iff_iff, climbs_cons_iff, climbs_cons_iff]
        refine exists_congr fun j => and_congr_right fun hj => ?_
        have hw := ho j hj
        rw [(h j hw).1, (h j hw).2, ih fun k hk => hw.trans (.step hk (.refl k))]
  exact above fun k hk => Option.some.inj hk ▸ .refl i

/-! ### What is found -/

/-- A path is refused exactly if a name in it is blank. Any other path finds, each once and in
document order, the live nodes that bear a name of its last step and whose ancestors bear names of the
steps before it. Without a root nothing is found, and with one the numbers to choose from can always
be told. -/
theorem select_of_reachable {t : Tree} (h : Reachable t) (path : String) :
    (∀ f, parse path = .error f ↔ ¬ Filled path ∧ f = ⟨path⟩) ∧
    ((∃ s, parse path = .ok s) ↔ Filled path) ∧
    ∀ s, parse path = .ok s →
      s.steps = ((path.toList.splitOn '/').map fun step =>
        (step.splitOn '|').map fun name => Text.trim (String.ofList name)) ∧
      (Edit.select path).run t = .ok (s.select t) t ∧
      (∀ i, i ∈ s.select t ↔ t.Live i ∧ ∀ k step, s.steps.reverse[k]? = some step →
        ∃ a tag, t.ascend k i = some a ∧ t.tag? a = some tag ∧ tag ∈ step) ∧
      (s.select t).Nodup ∧
      (t.root = none → s.select t = []) ∧
      ∀ r, t.root = some r → t.descendants r = .ok ((t.subtree r).map Node.id) ∧
        (s.select t).Sublist ((t.subtree r).map Node.id) := by
  have hf := h.forest
  by_cases hfilled : Filled path
  · have hparse := parse_of_filled hfilled
    refine ⟨by simp [hparse, hfilled], by simp [hparse, hfilled], fun s hs => ?_⟩
    obtain rfl : ⟨names path⟩ = s := Except.ok.inj (hparse.symm.trans hs)
    refine ⟨names_eq path, run_select hs t, fun i => ?_, hf.nodup_select _, fun hr => ?_,
      fun r hr => ⟨?_, ?_⟩⟩
    · rw [hf.mem_select, accepts_iff]
    · rw [select, find, live, hr]
      rfl
    · rw [descendants, hf.walk_eq (hf.root_lt hr)]
    · rw [select, find, hf.live_eq hr]
      exact List.filter_sublist.map Node.id
  · have hparse := parse_of_not_filled hfilled
    exact ⟨by simp [hparse, hfilled, eq_comm], by simp [hparse, hfilled], by simp [hparse]⟩

/-- A path of two steps, with blanks around its names and a choice in its last step. -/
theorem select_of_choice :
    let a : Node := { Node.element "a" with children := [1] }
    let b : Node := { Node.element "b" with id := 1, parent := some 0 }
    let t : Tree := { nodes := #[a, b], root := some 0 }
    Reachable t ∧ parse " a / b | c" = .ok ⟨[["a"], ["b", "c"]]⟩ ∧
      ∀ i, i ∈ (Selector.mk [["a"], ["b", "c"]]).select t ↔ t.Live i ∧
        ∀ k step, [["b", "c"], ["a"]][k]? = some step →
          ∃ a tag, t.ascend k i = some a ∧ t.tag? a = some tag ∧ tag ∈ step := by
  intro a b t
  have h : Reachable t :=
    .done (c := .appendChild 0 1) (.done (c := .setRoot 0) reachable_pair rfl) rfl
  have hparse : parse " a / b | c" = .ok ⟨[["a"], ["b", "c"]]⟩ := by decide +kernel
  obtain ⟨-, -, hselect⟩ := select_of_reachable h " a / b | c"
  obtain ⟨-, -, hmem, -⟩ := hselect _ hparse
  exact ⟨h, hparse, hmem⟩

end Selector

end BookMarkup
