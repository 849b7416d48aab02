import BookMarkup.Proofs.Document.Reading
import BookMarkup.Proofs.Rule.Idle
import BookMarkup.Proofs.Rule.Pruned
import BookMarkup.Proofs.Tree.Copied

/-!
Pruning for any lists of elements and attributes, told on the tree that the rule finds. The paths
are held one after the other against trees that have lost nodes already, and those for the attributes
against what is left in the end. But all that a path looks at is above the node in question, and
there a live node loses nothing; so the paths might as well be held against the first tree, all at
once. Hence the order in which they are listed does not matter, and the rule finds nothing to do in
what it leaves.
-/

namespace BookMarkup.Rule

open BookMarkup.Tree

def isSelected (paths : List String) (t : Tree) (i : NodeId) : Bool :=
  paths.any (selects · t i)

theorem selects_iff {path : String} {t : Tree} {i : NodeId} :
    selects path t i = true ↔ ∃ s, Selector.parse path = .ok s ∧ s.accepts t i = true := by
  rw [selects]
  cases Selector.parse path with
  | error e => simp [Except.toOption]
  | ok s => simp [Except.toOption]

theorem isSelected_iff {paths : List String} {t : Tree} {i : NodeId} :
    isSelected paths t i = true ↔ Selected paths t i := by
  simp only [isSelected, List.any_eq_true, selects_iff, Selected]

/-- What pruning makes of `t`. The elements that a path accepts are lost with all that is below
them. What is left has its parent, its children that are left, and the attributes that are not
listed for it. The paths are all held against `t`. -/
structure Purged (t : Tree) (elements : List String) (rows : List (String × List String))
    (t' : Tree) : Prop where
  proper : Proper t'
  size : t'.nodes.size = t.nodes.size
  root : t'.root = t.root.filter (!isSelected elements t ·)
  live : ∀ i, t'.Live i ↔ t.Live i ∧ ¬ Inside t (Selected elements t) i
  contentOf : ∀ i, t'.Live i → t'.contentOf i = (t.contentOf i).map (bared (listedFor rows t i))
  parentOf : ∀ i, t'.Live i → t'.parentOf i = t.parentOf i
  childrenOf : ∀ i, t'.Live i →
    t'.childrenOf i = (t.childrenOf i).filter (!isSelected elements t ·)

variable {t t' : Tree} {elements : List String} {rows : List (String × List String)}

/-! ### One run -/

/-- The root is lost exactly if a path accepts it: there is nothing above it. -/
theorem Pruned.root_eq_filter (hp : Pruned t t') (ht : Proper t)
    (hl : ∀ i, t'.Live i ↔ t.Live i ∧ ¬ Inside t (Selected elements t) i) :
    t'.root = t.root.filter (!isSelected elements t ·) := by
  cases hr : t.root with
  | none => exact Option.eq_none_iff_forall_ne_some.2 fun r hr' => by simp [hp.root r hr'] at hr
  | some r =>
      by_cases hs : isSelected elements t r = true
      · rw [Option.filter_some_neg (by simp [hs]), Option.eq_none_iff_forall_ne_some]
        intro q hq
        obtain rfl := Option.some.inj (hr.symm.trans (hp.root q hq))
        exact ((hl r).1 ⟨r, hq, .refl r⟩).2 ⟨r, isSelected_iff.1 hs, .refl r⟩
      · rw [Option.filter_some_pos (by simp [hs]), hp.root_eq ht, hr]
        intro q hq
        obtain rfl := Option.some.inj (hr.symm.trans hq)
        refine (hl r).2 ⟨⟨r, hr, .refl r⟩, fun hin => ?_⟩
        rcases inside_iff.1 hin with hc | ⟨p, hrp, -⟩
        · exact hs (isSelected_iff.2 hc)
        · exact ht.root_ne_of_parentOf hrp hr

theorem Pruned.childrenOf_eq_unselected (hp : Pruned t t') (ht : Proper t)
    (hl : ∀ i, t'.Live i ↔ t.Live i ∧ ¬ Inside t (Selected elements t) i) {p : NodeId}
    (hlp : t'.Live p) :
    t'.childrenOf p = (t.childrenOf p).filter (!isSelected elements t ·) := by
  refine hp.childrenOf_eq_filter ht fun c hc => ?_
  rw [hp.parentOf_child_iff hl hlp hc, Bool.not_eq_true', ← Bool.not_eq_true, isSelected_iff]

theorem exists_purged (ht : Proper t) (he : ∀ path ∈ elements, ∃ s, Selector.parse path = .ok s)
    (hr : ∀ row ∈ rows, ∃ s, Selector.parse row.1 = .ok s) :
    ∃ n t', (pruneMetadata elements rows).apply.run t = .ok n t' ∧ Purged t elements rows t' := by
  obtain ⟨n, t₁, hrun, hp, hl⟩ := run_removeEach ht elements he
  obtain ⟨m, t₂, hrest, hre, hc, -⟩ := run_removeAttributesEach hp.proper rows hr
  have hlisted {i : NodeId} (hi : t₁.Live i) : listedFor rows t₁ i = listedFor rows t i := by
    have hsame (path : String) : selects path t i = selects path t₁ i :=
      selects_congr path fun j hw =>
        ⟨(hp.tag?_eq j).symm, (hp.parentOf j (live_of_within hp.proper hi hw)).symm⟩
    simp only [listedFor, hsame]
  refine ⟨n + m, t₂, ?_, hre.proper, hre.size.trans hp.size,
    hre.root.trans (hp.root_eq_filter ht hl), fun i => hre.live_iff.trans (hl i), fun i hi => ?_,
    fun i hi => ?_, fun i hi => ?_⟩
  · simp only [pruneMetadata, EStateM.run_bind, hrun, hrest, EStateM.run_pure]
  · have hi := hre.live_iff.1 hi
    rw [hc i hi, hlisted hi, hp.contentOf]
  · rw [hre.parentOf, hp.parentOf i (hre.live_iff.1 hi)]
  · rw [hre.childrenOf, hp.childrenOf_eq_unselected ht hl (hre.live_iff.1 hi)]

/-! ### Another run -/

section Purged

variable (h : Purged t elements rows t')

include h

theorem Purged.tag?_eq {i : NodeId} (hi : t'.Live i) : t'.tag? i = t.tag? i :=
  tag?_eq_of_bared (h.contentOf i hi)

theorem Purged.selects_eq (path : String) {i : NodeId} (hi : t'.Live i) :
    selects path t' i = selects path t i :=
  (selects_congr path fun j hw =>
    have hj := live_of_within h.proper hi hw
    ⟨(h.tag?_eq hj).symm, (h.parentOf j hj).symm⟩).symm

theorem Purged.idle (he : ∀ path ∈ elements, ∃ s, Selector.parse path = .ok s)
    (hr : ∀ row ∈ rows, ∃ s, Selector.parse row.1 = .ok s) :
    Idle (pruneMetadata elements rows).apply t' := by
  have hselects {path : String} {s : Selector} (hs : Selector.parse path = .ok s) {i : NodeId}
      (hi : t'.Live i) (ha : s.accepts t' i = true) : selects path t i = true := by
    rw [← h.selects_eq path hi, selects_of_parse hs, ha]
  have helements : ∀ path ∈ elements, ∃ s, Selector.parse path = .ok s ∧ s.select t' = [] := by
    intro path hpath
    obtain ⟨s, hs⟩ := he path hpath
    refine ⟨s, hs, h.proper.forest.select_eq_nil_iff.2 fun i hi ha => ?_⟩
    exact ((h.live i).1 hi).2 ⟨i, ⟨path, hpath, selects_iff.1 (hselects hs hi ha)⟩, .refl i⟩
  refine (idle_removeEach helements).bind
    ((idle_removeAttributesEach h.proper fun row hrow => ?_).bind idle_pure)
  obtain ⟨s, hs⟩ := hr row hrow
  refine ⟨s, hs, fun i hm name hname => ?_⟩
  obtain ⟨hi, ha⟩ := h.proper.forest.mem_select.1 hm
  have hlisted : name ∈ listedFor rows t i :=
    mem_listedFor.2 ⟨row, hrow, hselects hs hi ha, hname⟩
  rw [attribute?_eq, h.contentOf i hi, Option.bind_map, Option.bind_eq_none_iff]
  exact fun n _ => Attributes.get?_without_of_mem n.attributes hlisted

/-- The lists tell what is left by what is in them, in whatever order. -/
theorem Purged.copied {elements' : List String} {rows' : List (String × List String)} {u : Tree}
    (h' : Purged t elements' rows' u) (he : elements'.Perm elements)
    (hr : rows'.Perm rows) : Copied id t' u := by
  have hselected : isSelected elements' t = isSelected elements t := funext fun _ => he.any_eq
  have hlive (i : NodeId) : u.Live i ↔ t'.Live i := by
    rw [h'.live, h.live]
    simp only [Inside, ← isSelected_iff, hselected]
  have hbared (i : NodeId) : bared (listedFor rows' t i) = bared (listedFor rows t i) := by
    funext n
    have hnames (name : String) : name ∈ listedFor rows' t i ↔ name ∈ listedFor rows t i :=
      (hr.flatMap_right _).mem_iff
    rw [bared, bared, n.attributes.without_congr hnames]
  refine .of_views ?_ (fun i hi => ?_) (fun i hi => ?_) (fun i hi => ?_) h.proper.forest
  · rw [h'.root, h.root, hselected, Option.map_id, id]
  · rw [id, h'.contentOf i ((hlive i).2 hi), hbared, ← h.contentOf i hi,
      h.proper.forest.map_contentOf]
  · rw [id, h'.parentOf i ((hlive i).2 hi), ← h.parentOf i hi, Option.map_id, id]
  · rw [id, h'.childrenOf i ((hlive i).2 hi), hselected, ← h.childrenOf i hi, List.map_id]

end Purged

/-- The rule that prunes, on a document: it always succeeds, what it leaves is told on the document,
it does nothing the second time, and the order of the lists does not matter. -/
theorem pruneMetadata_of_parse {o : Reader.Options} {text : String} {d : Document}
    (h : Document.parse o text = .ok d)
    (he : ∀ path ∈ elements, ∃ s, Selector.parse path = .ok s)
    (hr : ∀ row ∈ rows, ∃ s, Selector.parse row.1 = .ok s) :
    ∃ n t', (pruneMetadata elements rows).apply.run d.tree = .ok n t' ∧
      Purged d.tree elements rows t' ∧ (pruneMetadata elements rows).apply.run t' = .ok 0 t' ∧
      ∀ elements' rows', elements'.Perm elements → rows'.Perm rows →
        ∃ m u, (pruneMetadata elements' rows').apply.run d.tree = .ok m u ∧ Copied id t' u := by
  have hp := Document.proper_of_parse h
  obtain ⟨n, t', hrun, ht'⟩ := exists_purged hp he hr
  refine ⟨n, t', hrun, ht', ht'.idle he hr, fun elements' rows' hpe hpr => ?_⟩
  obtain ⟨m, u, hrun', hu⟩ := exists_purged hp (fun path hm => he path (hpe.mem_iff.1 hm))
    fun row hm => hr row (hpr.mem_iff.1 hm)
  exact ⟨m, u, hrun', ht'.copied hu hpe hpr⟩

/-- A path that accepts a node within one that another path accepts, and two rows for one element.
With the lists in the other order one more node is removed, and the same is left. -/
theorem pruneMetadata_of_nested : ∃ d n t' m u, Document.parse {}
      "<a><b k='1' l='2' m='3'><c><b l='4'/></c></b><c k='5'>t</c></a>" = .ok d ∧
    (pruneMetadata ["a/b/c", "c/b"] [("b|c", ["k"]), ("a/b", ["l", "k"])]).apply.run d.tree =
      .ok n t' ∧
    Purged d.tree ["a/b/c", "c/b"] [("b|c", ["k"]), ("a/b", ["l", "k"])] t' ∧
    (pruneMetadata ["c/b", "a/b/c"] [("a/b", ["l", "k"]), ("b|c", ["k"])]).apply.run d.tree =
      .ok m u ∧
    Copied id t' u ∧
    (d.tree.live.map Node.id).filter (isSelected ["a/b/c", "c/b"] d.tree) = [2, 3] ∧
    listedFor [("b|c", ["k"]), ("a/b", ["l", "k"])] d.tree 1 = ["k", "l", "k"] := by
  obtain ⟨n₁, n₂, n₃, n₄⟩ : Selector.names "a/b/c" = [["a"], ["b"], ["c"]] ∧
      Selector.names "c/b" = [["c"], ["b"]] ∧ Selector.names "b|c" = [["b", "c"]] ∧
      Selector.names "a/b" = [["a"], ["b"]] := by
    refine ⟨?_, ?_, ?_, ?_⟩ <;> cbv
  have he : ∀ path ∈ ["a/b/c", "c/b"], ∃ s, Selector.parse path = .ok s := by
    simp only [List.forall_mem_cons, List.not_mem_nil, false_imp_iff, implies_true, and_true]
    exact ⟨⟨_, Selector.parse_of_names n₁ rfl⟩, ⟨_, Selector.parse_of_names n₂ rfl⟩⟩
  have hr : ∀ row ∈ [("b|c", ["k"]), ("a/b", ["l", "k"])], ∃ s, Selector.parse row.1 = .ok s := by
    simp only [List.forall_mem_cons, List.not_mem_nil, false_imp_iff, implies_true, and_true]
    exact ⟨⟨_, Selector.parse_of_names n₃ rfl⟩, ⟨_, Selector.parse_of_names n₄ rfl⟩⟩
  obtain ⟨d, hparse, hselected, hlisted⟩ : ∃ d, Document.parse {}
      "<a><b k='1' l='2' m='3'><c><b l='4'/></c></b><c k='5'>t</c></a>" = .ok d ∧
      (d.tree.live.map Node.id).filter (isSelected ["a/b/c", "c/b"] d.tree) = [2, 3] ∧
      listedFor [("b|c", ["k"]), ("a/b", ["l", "k"])] d.tree 1 = ["k", "l", "k"] :=
    exists_ok_of_any (by decide +kernel)
  obtain ⟨n, t', hrun, ht', -, horder⟩ := pruneMetadata_of_parse hparse he hr
  obtain ⟨m, u, hrun', hcopied⟩ := horder _ _ (.swap _ _ _) (.swap _ _ _)
  exact ⟨d, n, t', m, u, hparse, hrun, ht', hrun', hcopied, hselected, hlisted⟩

end BookMarkup.Rule
