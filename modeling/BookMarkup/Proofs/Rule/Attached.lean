import BookMarkup.Proofs.Document.Reading
import BookMarkup.Proofs.Rule.Callout
import BookMarkup.Proofs.Rule.Rearranged
import BookMarkup.Proofs.Tree.Precedence
import Mathlib.Data.List.Induction
import Mathlib.Data.List.Nodup
import Mathlib.Data.List.TakeWhile

/-!
What the rule for callouts makes of a tree, told for all lists at once. Each listing takes the lists
of callouts that follow it without a gap. The loop moves a list only when it comes to it, so that the
siblings before a list have been dealt with by then: those that a listing has taken are gone, and the
last one left is the listing itself.
-/

namespace BookMarkup.Rule

open BookMarkup.Tree

def isCalloutList (t : Tree) (i : NodeId) : Bool :=
  t.tag? i == some "calloutlist"

def following (t : Tree) (i : NodeId) : List NodeId :=
  match t.parentOf i with
  | none => []
  | some p => (t.childrenOf p).drop ((t.childrenOf p).idxOf i + 1)

/-- The lists of callouts that follow a listing without a gap. -/
def calloutRun (t : Tree) (i : NodeId) : List NodeId :=
  if isExample t i then (following t i).takeWhile (isCalloutList t) else []

def ownerOf (t : Tree) (list : NodeId) : Option NodeId :=
  if isCalloutList t list then
    ((earlier t list).filter fun c => !isCalloutList t c).getLast?.filter (isExample t)
  else none

/-- The tree `t'` is `t` with all runs of callouts at the end of their listings. -/
structure Attached (t t' : Tree) : Prop where
  proper : Proper t'
  root : t'.root = t.root
  size : t'.nodes.size = t.nodes.size
  contentOf : ∀ i, t'.contentOf i = t.contentOf i
  childrenOf : ∀ i, t.Live i → t'.childrenOf i =
    ((t.childrenOf i).filter fun c => c ∉ (t.childrenOf i).flatMap (calloutRun t)) ++
      calloutRun t i
  rest : ∀ i, ¬ t.Live i → t'.childrenOf i = t.childrenOf i

theorem isExample_of_isCalloutList {t : Tree} {i : NodeId} (h : isCalloutList t i = true) :
    isExample t i = false := by
  rw [isExample, beq_iff_eq.1 h]
  decide

theorem calloutRun_sublist (t : Tree) (e : NodeId) :
    (calloutRun t e).Sublist (following t e) := by
  rw [calloutRun]
  split
  · exact List.takeWhile_sublist _
  · exact List.nil_sublist _

section Runs

variable {t : Tree} (h : Proper t) {e list p : NodeId}

include h

theorem following_eq {before after : List NodeId} (hc : t.childrenOf p = before ++ e :: after) :
    following t e = after := by
  obtain ⟨hp, he, -⟩ := h.forest.of_childrenOf_eq hc
  have hdrop : before ++ e :: after = (before ++ [e]) ++ after := by simp
  rw [following, hp]
  simp only
  rw [hc, List.idxOf_append_of_notMem he, List.idxOf_cons_self, hdrop, List.drop_left']
  simp

/-- A list belongs to the run of a listing if there are lists only between them. -/
theorem mem_calloutRun_iff : list ∈ calloutRun t e ↔ ∃ p before between after,
    t.childrenOf p = before ++ e :: (between ++ list :: after) ∧ isExample t e = true ∧
      isCalloutList t list = true ∧ ∀ c ∈ between, isCalloutList t c = true := by
  rw [calloutRun]
  constructor
  · intro hm
    split at hm
    · next he =>
      cases hp : t.parentOf e with
      | none => simp [following, hp] at hm
      | some p =>
          obtain ⟨before, after, hc⟩ := List.append_of_mem (h.forest.mem_childrenOf.2 hp)
          rw [following_eq h hc] at hm
          obtain ⟨between, more, hrun⟩ := List.append_of_mem hm
          have hafter := List.takeWhile_append_dropWhile (p := isCalloutList t) (l := after)
          have hall (c : NodeId) (hc : c ∈ after.takeWhile (isCalloutList t)) :
              isCalloutList t c = true := List.mem_takeWhile_imp hc
          refine ⟨p, before, between, more ++ after.dropWhile (isCalloutList t), ?_, he,
            hall list hm, fun c hcb => hall c (by simp [hrun, hcb])⟩
          rw [hc]
          conv_lhs => rw [← hafter, hrun]
          simp
    · simp at hm
  · rintro ⟨p, before, between, after, hc, he, hl, hb⟩
    rw [if_pos he, following_eq h hc, List.takeWhile_append_of_pos hb,
      List.takeWhile_cons_of_pos hl]
    simp

/-- The last sibling before a list that is no list itself is the listing that it belongs to, if that
is a listing. -/
theorem mem_calloutRun_iff_ownerOf : list ∈ calloutRun t e ↔ ownerOf t list = some e := by
  rw [mem_calloutRun_iff h, ownerOf]
  constructor
  · rintro ⟨p, before, between, after, hc, he, hl, hb⟩
    have hsplit : t.childrenOf p = (before ++ e :: between) ++ list :: after := by simp [hc]
    have hnot : isCalloutList t e = false := by
      by_contra hn
      simp [isExample_of_isCalloutList ((Bool.not_eq_false _).mp hn)] at he
    have hbetween : between.filter (fun c => !isCalloutList t c) = [] :=
      List.filter_eq_nil_iff.2 fun c hc => by simp [hb c hc]
    rw [if_pos hl, earlier_eq h hsplit, List.filter_append,
      List.filter_cons_of_pos (by simp [hnot]), hbetween]
    simp [he]
  · intro ho
    split at ho
    · next hl =>
      obtain ⟨hlast, he⟩ := Option.filter_eq_some_iff.1 ho
      obtain ⟨front, hfront⟩ := List.getLast?_eq_some_iff.1 hlast
      obtain ⟨l₁, l₂, hearlier, -, h₂⟩ := List.filter_eq_append_iff.1 hfront
      obtain ⟨before, between, rfl, -, -, hbetween⟩ := List.filter_eq_cons_iff.1 h₂
      cases hp : t.parentOf list with
      | none => simp [earlier, hp] at hearlier
      | some p =>
          obtain ⟨ahead, after, hc⟩ := List.append_of_mem (h.forest.mem_childrenOf.2 hp)
          rw [earlier_eq h hc] at hearlier
          refine ⟨p, l₁ ++ before, between, after, by simp [hc, hearlier], he, hl, fun c hcb => ?_⟩
          simpa using List.filter_eq_nil_iff.1 hbetween c hcb
    · simp at ho

theorem following_sublist (e : NodeId) (hp : t.parentOf e = some p) :
    (e :: following t e).Sublist (t.childrenOf p) := by
  obtain ⟨before, after, hc⟩ := List.append_of_mem (h.forest.mem_childrenOf.2 hp)
  rw [following_eq h hc, hc]
  exact List.sublist_append_right _ _

theorem nodup_calloutRun (e : NodeId) : (calloutRun t e).Nodup := by
  cases hp : t.parentOf e with
  | none => simp [calloutRun, following, hp]
  | some p =>
      have hd := (following_sublist h e hp).nodup (h.forest.nodup_childrenOf p)
      exact (calloutRun_sublist t e).nodup (List.nodup_cons.1 hd).2

theorem parentOf_of_mem_calloutRun (hl : list ∈ calloutRun t e) :
    ∃ p, t.parentOf e = some p ∧ t.parentOf list = some p ∧ isCalloutList t list = true := by
  obtain ⟨p, before, between, after, hc, -, hlist, -⟩ := (mem_calloutRun_iff h).1 hl
  exact ⟨p, h.forest.mem_childrenOf.1 (by simp [hc]), h.forest.mem_childrenOf.1 (by simp [hc]),
    hlist⟩

theorem live_iff_of_mem_calloutRun (hl : list ∈ calloutRun t e) : t.Live list ↔ t.Live e := by
  obtain ⟨p, hpe, hpl, -⟩ := parentOf_of_mem_calloutRun h hl
  exact ⟨fun hlive => (hlive.parent h hpl).child hpe, fun hlive => (hlive.parent h hpe).child hpl⟩

/-- Without the lists that belong to a run, what a list comes after is what its run comes after. -/
theorem getLast?_unowned {before after : List NodeId} (hc : t.childrenOf p = before ++ after) :
    (before.filter fun c => (ownerOf t c).isNone).getLast?.filter (isExample t) =
      (before.filter fun c => !isCalloutList t c).getLast?.filter (isExample t) := by
  induction before using List.reverseRecOn generalizing after with
  | nil => rfl
  | append_singleton before c ih =>
      rw [List.append_assoc, List.singleton_append] at hc
      have ih := ih hc
      rw [List.filter_append, List.filter_append, List.filter_singleton, List.filter_singleton]
      by_cases hl : isCalloutList t c = true
      · have howner : ownerOf t c =
            (before.filter fun c => !isCalloutList t c).getLast?.filter (isExample t) := by
          rw [ownerOf, if_pos hl, earlier_eq h hc]
        rw [hl, Bool.not_true, cond_false, List.append_nil, ← howner]
        cases ho : ownerOf t c with
        | none => simp [isExample_of_isCalloutList hl]
        | some e => rw [Option.isNone_some, cond_false, List.append_nil, ih, ← howner, ho]
      · have howner : ownerOf t c = none := by rw [ownerOf, if_neg hl]
        simp [howner, hl]

end Runs

/-! ### The loop -/

structure Attaching (t : Tree) (done : List NodeId) (u : Tree) : Prop where
  proper : Proper u
  root : u.root = t.root
  size : u.nodes.size = t.nodes.size
  contentOf : ∀ i, u.contentOf i = t.contentOf i
  childrenOf : ∀ i, u.childrenOf i =
    ((t.childrenOf i).filter fun c => ¬ (c ∈ done ∧ (ownerOf t c).isSome = true)) ++
      (calloutRun t i).filter fun c => c ∈ done

section Attaching

variable {t u : Tree} {done : List NodeId} {list p : NodeId}

theorem Attaching.refl (h : Proper t) : Attaching t [] t where
  proper := h
  root := rfl
  size := rfl
  contentOf _ := rfl
  childrenOf i := by simp

theorem Attaching.isExample_eq (hu : Attaching t done u) (i : NodeId) :
    isExample u i = isExample t i := by
  rw [isExample, tag?_eq_of_contentOf (hu.contentOf i), isExample]

/-- When it is the turn of a list, it has the listing before it to whose run it belongs. -/
theorem Attaching.hostOf_eq (ht : Proper t) (hu : Attaching t done u)
    (hl : isCalloutList t list = true) (hd : list ∉ done)
    (hdone : ∀ p before after, t.childrenOf p = before ++ list :: after →
      ∀ c ∈ before, isCalloutList t c = true → c ∈ done) :
    hostOf u list = ownerOf t list := by
  rw [hostOf, ownerOf, if_pos hl, funext hu.isExample_eq]
  cases hp : t.parentOf list with
  | none =>
      have hpu : u.parentOf list = none := by
        refine Option.eq_none_iff_forall_ne_some.2 fun q hq => ?_
        have hm := hu.proper.forest.mem_childrenOf.2 hq
        rw [hu.childrenOf, List.mem_append, List.mem_filter, List.mem_filter,
          ht.forest.mem_childrenOf] at hm
        simp [hp, hd] at hm
      simp [earlier, hp, hpu]
  | some p =>
      obtain ⟨before, after, hc⟩ := List.append_of_mem (ht.forest.mem_childrenOf.2 hp)
      have hcu : u.childrenOf p =
          (before.filter fun c => ¬ (c ∈ done ∧ (ownerOf t c).isSome = true)) ++
            list :: ((after.filter fun c => ¬ (c ∈ done ∧ (ownerOf t c).isSome = true)) ++
              (calloutRun t p).filter fun c => c ∈ done) := by
        rw [hu.childrenOf, hc, List.filter_append, List.filter_cons_of_pos (by simp [hd])]
        simp
      rw [earlier_eq hu.proper hcu, earlier_eq ht hc, ← getLast?_unowned ht hc]
      refine congrArg (fun l => Option.filter (isExample t) (List.getLast? l)) ?_
      refine List.filter_congr fun c hcb => ?_
      by_cases hlc : isCalloutList t c = true
      · cases ho : ownerOf t c with
        | none => simp
        | some e => simp [hdone p before after hc c hcb hlc]
      · simp [ownerOf, hlc]

theorem Attaching.skip (ht : Proper t) (hu : Attaching t done u) (ho : ownerOf t list = none) :
    Attaching t (done ++ [list]) u := by
  refine { hu with childrenOf := fun i => ?_ }
  rw [hu.childrenOf]
  refine congrArg₂ (· ++ ·) (List.filter_congr fun c _ => ?_) (List.filter_congr fun c hc => ?_)
  · by_cases hcl : c = list
    · simp [hcl, ho]
    · simp [hcl]
  · have hcl : c ≠ list := by
      rintro rfl
      rw [mem_calloutRun_iff_ownerOf ht, ho] at hc
      simp at hc
    simp [hcl]

/-- A list that belongs to a run goes to the end of its listing, after the lists of the run that went
there before it. -/
theorem Attaching.step {u' : Tree} {e : NodeId} (ht : Proper t) (hu : Attaching t done u)
    (ho : ownerOf t list = some e) (hd : list ∉ done)
    (hrun : ∀ before after, calloutRun t e = before ++ list :: after → ∀ c ∈ after, c ∉ done)
    (hr : Rearranged u u') (hsize : u'.nodes.size = u.nodes.size)
    (hcont : ∀ i, u'.contentOf i = u.contentOf i)
    (hchild : ∀ i, u'.childrenOf i =
      (u.childrenOf i).filter (· ≠ list) ++ if i = e then [list] else []) :
    Attaching t (done ++ [list]) u' := by
  refine ⟨hr.proper, hr.root.trans hu.root, hsize.trans hu.size,
    fun i => (hcont i).trans (hu.contentOf i), fun i => ?_⟩
  have hleft : ((t.childrenOf i).filter
      fun c => ¬ (c ∈ done ∧ (ownerOf t c).isSome = true)).filter (· ≠ list) =
        (t.childrenOf i).filter
          fun c => ¬ (c ∈ done ++ [list] ∧ (ownerOf t c).isSome = true) := by
    rw [List.filter_filter]
    refine List.filter_congr fun c _ => ?_
    by_cases hcl : c = list
    · simp [hcl, ho]
    · simp [hcl]
  have hkept : ((calloutRun t i).filter fun c => c ∈ done).filter (· ≠ list) =
      (calloutRun t i).filter fun c => c ∈ done := by
    refine List.filter_eq_self.2 fun c hc => decide_eq_true ?_
    rintro rfl
    exact hd (of_decide_eq_true (List.mem_filter.1 hc).2)
  have hright : (calloutRun t i).filter (fun c => c ∈ done ++ [list]) =
      ((calloutRun t i).filter fun c => c ∈ done) ++ if i = e then [list] else [] := by
    by_cases hie : i = e
    · subst hie
      obtain ⟨before, after, hsplit⟩ := List.append_of_mem ((mem_calloutRun_iff_ownerOf ht).2 ho)
      have hd' := nodup_calloutRun ht i
      rw [hsplit] at hd' ⊢
      rw [if_pos rfl, filter_mem_append hd' hd (hrun before after hsplit)]
    · rw [if_neg hie, List.append_nil]
      refine List.filter_congr fun c hc => ?_
      have hcl : c ≠ list := by
        rintro rfl
        rw [mem_calloutRun_iff_ownerOf ht, ho, Option.some.injEq] at hc
        exact hie hc.symm
      simp [hcl]
  rw [hchild, hu.childrenOf, List.filter_append, hleft, hkept, hright, List.append_assoc]

end Attaching

/-! ### All lists -/

section Select

variable {t : Tree} (h : Proper t) {s : Selector}
  (hs : ∀ i, s.accepts t i = isCalloutList t i) {list : NodeId} {done rest : List NodeId}

include h hs

theorem mem_select_calloutList : list ∈ s.select t ↔ t.Live list ∧ isCalloutList t list = true := by
  rw [h.forest.mem_select, hs]

/-- The loop has passed the lists among the siblings before the list whose turn it is. -/
theorem mem_done_of_before (hids : done ++ list :: rest = s.select t) {p : NodeId}
    {before after : List NodeId} (hc : t.childrenOf p = before ++ list :: after) {c : NodeId}
    (hcb : c ∈ before) (hl : isCalloutList t c = true) : c ∈ done := by
  have hlive : t.Live list := ((mem_select_calloutList h hs).1 (hids ▸ by simp)).1
  have hp : t.Live p := hlive.parent h (h.forest.of_childrenOf_eq hc).1
  have hpair : [c, list].Sublist (t.childrenOf p) := hc ▸ pair_sublist_of_mem_left hcb after
  have hcp : t.parentOf c = some p := h.forest.mem_childrenOf.1 (by simp [hc, hcb])
  exact (h.forest.precedes_of_siblings hp hpair (.refl c) (.refl list)).mem_done h.forest hids
    ((mem_select_calloutList h hs).2 ⟨hp.child hcp, hl⟩)

/-- The loop has not passed the lists of a run that come after the one whose turn it is. -/
theorem not_mem_done_of_calloutRun (hids : done ++ list :: rest = s.select t) {e : NodeId}
    {before after : List NodeId} (hrun : calloutRun t e = before ++ list :: after) {c : NodeId}
    (hc : c ∈ after) : c ∉ done := by
  obtain ⟨p, hpe, hpl, -⟩ := parentOf_of_mem_calloutRun h (show list ∈ calloutRun t e by simp [hrun])
  have hlive : t.Live list := ((mem_select_calloutList h hs).1 (hids ▸ by simp)).1
  have hpair : [list, c].Sublist (t.childrenOf p) :=
    calc [list, c]
      _ |>.Sublist (before ++ list :: after) := pair_sublist_of_mem_right hc before
      _ = calloutRun t e := hrun.symm
      _ |>.Sublist (following t e) := calloutRun_sublist t e
      _ |>.Sublist (e :: following t e) := List.sublist_cons_self _ _
      _ |>.Sublist (t.childrenOf p) := following_sublist h e hpe
  exact (h.forest.precedes_of_siblings (hlive.parent h hpl) hpair (.refl list) (.refl c)).notMem_done
    h.forest hids

theorem Attaching.attached {u : Tree} (hu : Attaching t (s.select t) u) : Attached t u where
  proper := hu.proper
  root := hu.root
  size := hu.size
  contentOf := hu.contentOf
  childrenOf i hi := by
    rw [hu.childrenOf]
    refine congrArg₂ (· ++ ·) (List.filter_congr fun c hc => decide_eq_decide.2 (not_congr ?_)) ?_
    · have hci := h.forest.mem_childrenOf.1 hc
      rw [mem_select_calloutList h hs, List.mem_flatMap]
      constructor
      · rintro ⟨-, ho⟩
        obtain ⟨e, he⟩ := Option.isSome_iff_exists.1 ho
        have hm := (mem_calloutRun_iff_ownerOf h).2 he
        obtain ⟨p, hpe, hpc, -⟩ := parentOf_of_mem_calloutRun h hm
        rw [hci, Option.some.injEq] at hpc
        exact ⟨e, h.forest.mem_childrenOf.2 (hpc ▸ hpe), hm⟩
      · rintro ⟨e, -, hm⟩
        obtain ⟨p, -, -, hl⟩ := parentOf_of_mem_calloutRun h hm
        exact ⟨⟨hi.child hci, hl⟩, by rw [(mem_calloutRun_iff_ownerOf h).1 hm]; rfl⟩
    · refine List.filter_eq_self.2 fun c hc => decide_eq_true ?_
      obtain ⟨p, -, -, hl⟩ := parentOf_of_mem_calloutRun h hc
      exact (mem_select_calloutList h hs).2 ⟨(live_iff_of_mem_calloutRun h hc).2 hi, hl⟩
  rest i hi := by
    have hchild : ∀ c ∈ t.childrenOf i, c ∉ s.select t := fun c hc hm =>
      hi (((mem_select_calloutList h hs).1 hm).1.parent h (h.forest.mem_childrenOf.1 hc))
    have hrun : ∀ c ∈ calloutRun t i, c ∉ s.select t := fun c hc hm =>
      hi ((live_iff_of_mem_calloutRun h hc).1 ((mem_select_calloutList h hs).1 hm).1)
    rw [hu.childrenOf, List.filter_eq_self.2 fun c hc => by simp [hchild c hc],
      List.filter_eq_nil_iff.2 fun c hc => by simp [hrun c hc], List.append_nil]

/-- Each list that is moved belongs to the run of one live node. -/
theorem sum_length_calloutRun : ((t.live.map Node.id).map fun i => (calloutRun t i).length).sum =
    ((s.select t).filter fun list => (ownerOf t list).isSome).length := by
  rw [← List.length_flatMap]
  refine List.Perm.length_eq ((List.perm_ext_iff_of_nodup ?_ ?_).2 fun list => ?_)
  · refine List.nodup_flatMap.2 ⟨fun e _ => nodup_calloutRun h e, ?_⟩
    refine h.forest.nodup_live.imp fun hne => ?_
    intro list hm hm'
    rw [mem_calloutRun_iff_ownerOf h] at hm hm'
    rw [hm, Option.some.injEq] at hm'
    exact hne hm'
  · exact (h.forest.nodup_select s).filter _
  · rw [List.mem_flatMap, List.mem_filter, mem_select_calloutList h hs]
    constructor
    · rintro ⟨e, he, hm⟩
      obtain ⟨p, -, -, hl⟩ := parentOf_of_mem_calloutRun h hm
      exact ⟨⟨(live_iff_of_mem_calloutRun h hm).2 (h.forest.mem_map_live.1 he), hl⟩,
        by rw [(mem_calloutRun_iff_ownerOf h).1 hm]; rfl⟩
    · rintro ⟨⟨hlive, -⟩, ho⟩
      obtain ⟨e, he⟩ := Option.isSome_iff_exists.1 ho
      have hm := (mem_calloutRun_iff_ownerOf h).2 he
      exact ⟨e, h.forest.mem_map_live.2 ((live_iff_of_mem_calloutRun h hm).1 hlive), hm⟩

end Select

/-- The loop puts each list that belongs to a run where it belongs. -/
theorem exists_attached {t : Tree} (h : Proper t) :
    ∃ t', attachCalloutLists.apply.run t =
        .ok ((t.live.map Node.id).map fun i => (calloutRun t i).length).sum t' ∧
      Rearranged t t' ∧ Attached t t' := by
  have hn : Selector.names "calloutlist" = [["calloutlist"]] := by cbv
  let s := Selector.mk [["calloutlist"]]
  have hs (i : NodeId) : s.accepts t i = isCalloutList t i := by
    rw [Bool.eq_iff_iff, Selector.accepts_one_iff, isCalloutList, beq_iff_eq]
    simp
  rw [sum_length_calloutRun h hs, ← sum_map_counted]
  suffices hrun : ∃ t', attachCalloutLists.apply.run t = .ok ((s.select t).map fun list =>
      if (ownerOf t list).isSome then 1 else 0).sum t' ∧ Rearranged t t' ∧
        Attaching t (s.select t) t' by
    obtain ⟨t', hrun, hr, hu⟩ := hrun
    exact ⟨t', hrun, hr, hu.attached h hs⟩
  refine run_select_tally_prefix (Selector.parse_of_names hn rfl) h.forest attachCallouts _
    (fun done u => Rearranged t u ∧ Attaching t done u) (fun done list rest u hids hld hinv => ?_)
    ⟨.refl h, .refl h⟩
  obtain ⟨hr, hu⟩ := hinv
  obtain ⟨hlive, hl⟩ := (mem_select_calloutList h hs).1 (hids ▸ List.mem_append_right _
    List.mem_cons_self)
  have hhost := hu.hostOf_eq h hl hld fun p before after hc c hcb =>
    mem_done_of_before h hs hids hc hcb
  obtain ⟨hnone, hrun⟩ | ⟨e, u', hsome, hrun, hr', hsize, hcont, -, hchild⟩ :=
    run_attachCallouts hu.proper (hu.size ▸ h.lt_of_live hlive)
  · rw [hhost] at hnone
    exact ⟨u, by rw [hrun, hnone]; rfl, hr, hu.skip h hnone⟩
  · rw [hhost] at hsome
    exact ⟨u', by rw [hrun, hsome]; rfl, hr.trans hr', hu.step h hsome hld
      (fun before after hrun c => not_mem_done_of_calloutRun h hs hids hrun) hr' hsize hcont hchild⟩

theorem Attached.parentOf_eq {t t' : Tree} (h : Proper t) (ha : Attached t t') {i : NodeId}
    (hi : t.tag? i ≠ some "calloutlist") : t'.parentOf i = t.parentOf i := by
  have hnot (e : NodeId) : i ∉ calloutRun t e := fun hm => by
    obtain ⟨_, -, -, hl⟩ := parentOf_of_mem_calloutRun h hm
    exact hi (beq_iff_eq.1 hl)
  refine Option.ext fun q => ?_
  rw [← ha.proper.forest.mem_childrenOf, ← h.forest.mem_childrenOf]
  by_cases hq : t.Live q
  · rw [ha.childrenOf q hq, List.mem_append, List.mem_filter]
    simp [hnot]
  · rw [ha.rest q hq]

theorem run_attachCalloutLists {t : Tree} (h : Proper t) :
    ∃ n t', attachCalloutLists.apply.run t = .ok n t' ∧ Rearranged t t' ∧
      t'.nodes.size = t.nodes.size ∧ MovesOnly (fun i => t.tag? i = some "calloutlist") t t' := by
  obtain ⟨t', hrun, hr, ha⟩ := exists_attached h
  exact ⟨_, t', hrun, hr, ha.size,
    hr.movesOnly h (fun i _ => ha.contentOf i) fun i _ hi => ha.parentOf_eq h hi⟩

/-- The rule for callouts on a document: each listing has the lists of callouts that followed it without
a gap for its last children, in their order. -/
theorem attachCalloutLists_of_parse {o : Reader.Options} {text : String} {d : Document}
    (h : Document.parse o text = .ok d) :
    ∃ t', attachCalloutLists.apply.run d.tree =
        .ok ((d.tree.live.map Node.id).map fun i => (calloutRun d.tree i).length).sum t' ∧
      Attached d.tree t' := by
  obtain ⟨t', hrun, -, ha⟩ := exists_attached (Document.proper_of_parse h)
  exact ⟨t', hrun, ha⟩

/-- A run of two lists, and one more within the listing that takes them. -/
theorem attachCalloutLists_of_nested_runs : ∃ d t',
    Document.parse {}
      "<a><example><example/><calloutlist/></example><calloutlist/><calloutlist/></a>" = .ok d ∧
    attachCalloutLists.apply.run d.tree = .ok 3 t' ∧ Attached d.tree t' := by
  obtain ⟨d, hparse, hthree⟩ : ∃ d, Document.parse {}
      "<a><example><example/><calloutlist/></example><calloutlist/><calloutlist/></a>" = .ok d ∧
        ((d.tree.live.map Node.id).map fun i => (calloutRun d.tree i).length).sum = 3 :=
    exists_ok_of_any (by decide +kernel)
  obtain ⟨t', hrun, ha⟩ := attachCalloutLists_of_parse hparse
  exact ⟨d, t', hparse, hthree ▸ hrun, ha⟩

end BookMarkup.Rule
