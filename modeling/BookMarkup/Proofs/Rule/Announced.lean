import BookMarkup.Proofs.Document.Legible
import BookMarkup.Proofs.Rule.CrossReference
import BookMarkup.Proofs.Tree.Precedence
import Mathlib.Data.List.Find

/-!
What the rule for cross-references makes of a tree, told for all references at once. The new texts
are numbered as their references come in the document. The targets are looked up among the nodes
that are live at the start, so that no label depends on what has been written before it.
-/

namespace BookMarkup.Rule

open BookMarkup.Tree

def isReference (t : Tree) (x : NodeId) : Bool :=
  t.tag? x == some "xref" && (t.attribute? x "linkend").isSome

def references (t : Tree) : List NodeId :=
  (t.live.map Node.id).filter (isReference t)

def elementNamed? (t : Tree) (id : String) : Option NodeId :=
  (t.live.map Node.id).find? fun i => (t.tag? i).isSome && t.attribute? i "id" == some id

def labelOf (t : Tree) (x : NodeId) : String :=
  labelFor (((t.attribute? x "linkend").bind (elementNamed? t)).bind t.tag?) ++ " "

/-- The label as the rule finds it, for which it searches nodes of all kinds. -/
def foundLabel (t : Tree) (x : NodeId) : String :=
  labelFor (((t.attribute? x "linkend").bind (target? t.live)).bind Node.tag?) ++ " "

/-- The tree `t'` is `t` with a new text right before each of the references. -/
structure Announced (t : Tree) (label : NodeId → String) (refs : List NodeId) (t' : Tree) :
    Prop where
  proper : Proper t'
  root : t'.root = t.root
  size : t'.nodes.size = t.nodes.size + refs.length
  contentOf : ∀ i < t.nodes.size, t'.contentOf i = t.contentOf i
  parentOf : ∀ i < t.nodes.size, t'.parentOf i = t.parentOf i
  childrenOf : ∀ i, t'.childrenOf i =
    (t.childrenOf i).flatMap fun c => if c ∈ refs then [t.numberFor refs c, c] else [c]
  label : ∀ x ∈ refs, t'.contentOf (t.numberFor refs x) =
    some { Node.text (label x) with id := t.numberFor refs x }

section Announced

variable {t u t' : Tree} {label : NodeId → String} {refs : List NodeId} {x p : NodeId}

theorem Announced.refl (h : Proper t) (label : NodeId → String) : Announced t label [] t where
  proper := h
  root := rfl
  size := rfl
  contentOf _ _ := rfl
  parentOf _ _ := rfl
  childrenOf i := by simp
  label _ hx := absurd hx List.not_mem_nil

/-! ### One more reference -/

/-- Only before the new reference there is one more node. -/
theorem flatMap_numberFor_append (t : Tree) {l : List NodeId} (hl : x ∉ l) :
    (l.flatMap fun c => if c ∈ refs ++ [x] then [t.numberFor (refs ++ [x]) c, c] else [c]) =
      l.flatMap fun c => if c ∈ refs then [t.numberFor refs c, c] else [c] := by
  refine List.flatMap_congr fun c hc => ?_
  have hcx : c ≠ x := ne_of_mem_of_not_mem hc hl
  by_cases hm : c ∈ refs
  · rw [if_pos (List.mem_append_left _ hm), if_pos hm, numberFor_append_of_mem t hm]
  · rw [if_neg (by simp [hm, hcx]), if_neg hm]

theorem Announced.step (h : Announced t label refs u) (ht : Proper t) (hx : x ∉ refs)
    (hp : t.parentOf x = some p) : Announced t label (refs ++ [x])
      (planted u p ((u.childrenOf p).idxOf x) (Node.text (label x))) := by
  have hu := h.proper
  have hxs := lt_size_of_parentOf hp
  have hup : u.parentOf x = some p := (h.parentOf x hxs).trans hp
  obtain ⟨outer, ho⟩ := hu.element hup
  have hps := lt_size_of_tag? ho
  have hne {i : NodeId} (hi : i < t.nodes.size) : i ≠ u.nodes.size :=
    Nat.ne_of_lt (h.size ▸ Nat.lt_add_right _ hi)
  have hnew : t.numberFor (refs ++ [x]) x = u.nodes.size := by
    rw [numberFor_append_self t hx, h.size]
  have hcont := contentOf_planted hu hps ((u.childrenOf p).idxOf x) (Node.text (label x))
  obtain ⟨hproper, hroot⟩ :=
    Proper.planted hu ((u.childrenOf p).idxOf x) (Node.text (label x)) ho
  refine ⟨hproper, hroot.trans h.root, ?_, fun i hi => ?_, fun i hi => ?_, fun i => ?_,
    fun y hy => ?_⟩
  · rw [size_planted, h.size, List.length_append, List.length_singleton, Nat.add_assoc]
  · rw [hcont, if_neg (hne hi), h.contentOf i hi]
  · rw [parentOf_planted hu hps, if_neg (hne hi), h.parentOf i hi]
  · rw [childrenOf_planted hu hps]
    split
    · next hi =>
      subst hi
      obtain ⟨before, after, hkids⟩ := List.append_of_mem (ht.forest.mem_childrenOf.2 hp)
      obtain ⟨hbefore, hafter⟩ := not_mem_of_nodup (hkids ▸ ht.forest.nodup_childrenOf i)
      have hd := hu.forest.nodup_childrenOf i
      rw [h.childrenOf, hkids, List.flatMap_append, List.flatMap_cons, if_neg hx,
        List.singleton_append] at hd ⊢
      rw [List.flatMap_append, List.flatMap_cons, if_pos (by simp), hnew,
        flatMap_numberFor_append t hbefore, flatMap_numberFor_append t hafter]
      exact beside_zero (not_mem_of_nodup hd).1 _ _
    · next hi =>
      have hxi : x ∉ t.childrenOf i := fun hm => hi <| by
        rw [ht.forest.mem_childrenOf, hp, Option.some.injEq] at hm
        exact hm.symm
      rw [h.childrenOf, flatMap_numberFor_append t hxi]
  · rw [hcont]
    rcases List.mem_append.1 hy with hy | hy
    · have hlt : t.numberFor refs y < u.nodes.size := h.size ▸ numberFor_lt t hy
      rw [numberFor_append_of_mem t hy, if_neg (Nat.ne_of_lt hlt), h.label y hy]
    · rw [List.mem_singleton.1 hy, hnew, if_pos rfl]
      rfl

/-! ### The loop -/

theorem mem_select_references (ht : Proper t) :
    x ∈ (Selector.mk [["xref"]]).select t ↔ t.Live x ∧ t.tag? x = some "xref" := by
  rw [ht.forest.mem_select, Selector.accepts_one_iff]
  simp

theorem references_eq (t : Tree) :
    references t = ((Selector.mk [["xref"]]).select t).filter (isReference t) := by
  rw [select_eq_filter, references, List.filter_filter]
  refine List.filter_congr fun x _ => ?_
  rw [Bool.eq_iff_iff, Bool.and_eq_true, iff_self_and, isReference, Bool.and_eq_true, beq_iff_eq,
    Selector.accepts_one_iff]
  exact fun h => ⟨_, h.1, List.mem_singleton_self _⟩

/-- The labels are found among the nodes that are live at the start. -/
theorem run_labels {path : String} {s : Selector} (hs : Selector.parse path = .ok s) (t : Tree) :
    (do
      let nodes := (← get).live
      Edit.tally (labelReference nodes) (← Edit.select path) : Edit Nat).run t =
      (Edit.tally (labelReference t.live) (s.select t)).run t := by
  simp only [EStateM.run_bind, EStateM.run_get, run_select hs]

theorem run_labelCrossReferences_eq (t : Tree) : labelCrossReferences.apply.run t =
    (Edit.tally (labelReference t.live) ((Selector.mk [["xref"]]).select t)).run t := by
  have hn : Selector.names "xref" = [["xref"]] := by cbv
  exact run_labels (Selector.parse_of_names hn rfl) t

theorem exists_announced (ht : Proper t) (hroot : ¬ ∃ r, RootReference t r) :
    ∃ t', labelCrossReferences.apply.run t = .ok (references t).length t' ∧
      Announced t (foundLabel t) (references t) t' := by
  rw [run_labelCrossReferences_eq, references_eq, ← sum_map_counted]
  refine run_tally_prefix (ht.forest.nodup_select _) (labelReference t.live) _
    (fun done u => Announced t (foundLabel t) (done.filter (isReference t)) u)
    (fun done x rest u hids hxd hu => ?_) (.refl ht _)
  obtain ⟨hl, htag⟩ := (mem_select_references ht).1 (hids ▸ List.mem_append_right done
    List.mem_cons_self : x ∈ (Selector.mk [["xref"]]).select t)
  have hattr : u.attribute? x "linkend" = t.attribute? x "linkend" := by
    rw [attribute?_eq, hu.contentOf x (lt_size_of_tag? htag), ← attribute?_eq]
  have hisref : isReference t x = (t.attribute? x "linkend").isSome := by simp [isReference, htag]
  rw [List.filter_append, List.filter_singleton, hisref]
  cases hv : t.attribute? x "linkend" with
  | none =>
      refine ⟨u, run_labelReference_of_none _ (hattr.trans hv), ?_⟩
      rwa [Option.isSome_none, cond_false, List.append_nil]
  | some value =>
      obtain ⟨p, hp, -⟩ := hl.exists_parent fun hr => hroot ⟨x, hr, htag, value, hv⟩
      have hup : u.parentOf x = some p := (hu.parentOf x (lt_size_of_tag? htag)).trans hp
      have hfound : foundLabel t x = labelFor ((target? t.live value).bind Node.tag?) ++ " " := by
        rw [foundLabel, hv, Option.bind_some]
      refine ⟨_, run_labelReference hu.proper _ (hattr.trans hv) hup, ?_⟩
      rw [Option.isSome_some, cond_true, ← hfound]
      exact hu.step ht (fun hm => hxd (List.mem_filter.1 hm).1) hp

/-! ### What is kept -/

theorem mem_references (ht : Proper t) :
    x ∈ references t ↔ t.Live x ∧ t.tag? x = some "xref" ∧
      ∃ value, t.attribute? x "linkend" = some value := by
  rw [references, List.mem_filter, ht.forest.mem_map_live, isReference, Bool.and_eq_true,
    beq_iff_eq, Option.isSome_iff_exists]

theorem Announced.new (h : Announced t label refs u) (ht : Proper t) (hd : refs.Nodup)
    (hparent : ∀ x ∈ refs, ∃ p, t.parentOf x = some p) {i : NodeId} (hi : t.nodes.size ≤ i)
    (hlt : i < u.nodes.size) :
    IsText u i ∧ ∃ x ∈ refs, ∃ p, [i, x] <:+: u.childrenOf p := by
  obtain ⟨x, hx, rfl⟩ := exists_numberFor t hd hi (h.size ▸ hlt)
  refine ⟨⟨_, h.label x hx, rfl⟩, x, hx, ?_⟩
  obtain ⟨p, hp⟩ := hparent x hx
  obtain ⟨before, after, hkids⟩ := List.append_of_mem (ht.forest.mem_childrenOf.2 hp)
  refine ⟨p, ?_⟩
  rw [h.childrenOf, hkids, List.flatMap_append, List.flatMap_cons, if_pos hx, ← List.append_assoc]
  exact List.infix_append _ _ _

theorem Announced.labelled (h : Announced t label (references t) u) (ht : Proper t)
    (hroot : ¬ ∃ r, RootReference t r) : Labelled t u := by
  have hparent : ∀ x ∈ references t, ∃ p, t.parentOf x = some p := by
    intro x hx
    obtain ⟨hl, htag, hv⟩ := (mem_references ht).1 hx
    obtain ⟨p, hp, -⟩ := hl.exists_parent fun hr => hroot ⟨x, hr, htag, hv⟩
    exact ⟨p, hp⟩
  have hkept : Kept exchangedTags touchedNames t u := .of_contentOf fun i n hn =>
    (h.contentOf i (contentOf_isSome_iff.1 (by simp [hn]))).trans hn
  have hnew {i : NodeId} (hi : t.nodes.size ≤ i) (hlt : i < u.nodes.size) :=
    h.new ht (ht.forest.nodup_live.filter _) hparent hi hlt
  refine ⟨h.proper, h.root, hkept, fun i tag hi htag => ?_, h.contentOf, h.parentOf,
    fun i hi hlt => ?_⟩
  · obtain ⟨⟨n, hn, hkind⟩, -⟩ := hnew hi (lt_size_of_tag? htag)
    simp [tag?_eq, hn, Node.tag?, Node.isElement, hkind] at htag
  · obtain ⟨htext, x, hx, p, hin⟩ := hnew hi hlt
    have htag := ((mem_references ht).1 hx).2.1
    exact ⟨htext, x, p, (hkept.tag?_iff (lt_size_of_tag? htag) (by decide)).2 htag, hin⟩

/-- Labelling fails exactly if the root is a reference that names a target. It is the first of the
references then. -/
theorem run_labelCrossReferences (h : Proper t) :
    (∃ n t', labelCrossReferences.apply.run t = .ok n t' ∧ (¬ ∃ r, RootReference t r) ∧
      Labelled t t') ∨
    ∃ r, RootReference t r ∧
      ∃ t', labelCrossReferences.apply.run t = .error (.fault (.detached r)) t' := by
  by_cases hroot : ∃ r, RootReference t r
  · obtain ⟨r, hr, htag, value, hv⟩ := hroot
    obtain ⟨n, hn⟩ := Option.isSome_iff_exists.1 (get?_isSome_iff.2 (h.forest.root_lt hr))
    have hfirst : ∃ rest, (Selector.mk [["xref"]]).select t = r :: rest := by
      rw [select_eq_filter, h.forest.live_eq hr, h.forest.subtree_eq hn, List.map_cons,
        h.forest.numbered hn, List.filter_cons_of_pos
          (Selector.accepts_one_iff.2 ⟨_, htag, List.mem_singleton_self _⟩)]
      exact ⟨_, rfl⟩
    obtain ⟨rest, hrest⟩ := hfirst
    obtain ⟨t', hrun⟩ := run_labelReference_of_root h t.live hv hr
    refine .inr ⟨r, ⟨hr, htag, value, hv⟩, t', ?_⟩
    rw [run_labelCrossReferences_eq, hrest]
    simp only [Edit.tally, EStateM.run_bind, hrun]
  · obtain ⟨t', hrun, ht'⟩ := exists_announced h hroot
    exact .inl ⟨_, t', hrun, hroot, ht'.labelled h hroot⟩

/-! ### Targets -/

/-- Only elements have attributes, so that a search among all nodes finds elements. -/
theorem bind_target?_live (ht : Proper t) (hl : Legible t) (id : String) :
    (target? t.live id).bind Node.tag? = (elementNamed? t id).bind t.tag? := by
  have hview {n : Node} (hn : n ∈ t.live) : t.tag? n.id = n.tag? ∧
      ((t.tag? n.id).isSome && t.attribute? n.id "id" == some id) =
        (n.attribute? "id" == some id) := by
    obtain ⟨hg, -⟩ := ht.forest.mem_live.1 hn
    have hattr : t.attribute? n.id "id" = n.attribute? "id" := by
      rw [Tree.attribute?, hg, Option.bind_some]
    rw [tag?_of_get? hg, hattr]
    refine ⟨rfl, ?_⟩
    by_cases he : n.isElement = true
    · simp [Node.tag?, he]
    · obtain ⟨c, hc, halike, -⟩ := hl.exists_alike hg
      have hbare : n.attributes = Attributes.empty := halike.attributes.trans
        (hc.attributes_eq (halike.isElement_eq ▸ (Bool.not_eq_true _).mp he))
      simp [Node.tag?, he, Node.attribute?, hbare, Attributes.get?, Attributes.empty]
  rw [elementNamed?, List.find?_map, Option.bind_map, target?]
  rw [List.find?_congr fun n hn => (hview hn).2.symm]
  exact Option.bind_congr fun n hn => (hview (List.mem_of_find?_eq_some hn)).1.symm

theorem foundLabel_eq (ht : Proper t) (hl : Legible t) (x : NodeId) :
    foundLabel t x = labelOf t x := by
  rw [foundLabel, labelOf]
  cases t.attribute? x "linkend" with
  | none => rfl
  | some id => rw [Option.bind_some, Option.bind_some, bind_target?_live ht hl]

end Announced

/-- The rule for cross-references on a document whose root does not need a label: right before each
reference with a target name there is one new text, with the word for the first element of that name,
and all else is as it was. -/
theorem labelCrossReferences_of_parse {o : Reader.Options} {text : String} {d : Document}
    (h : Document.parse o text = .ok d) (hroot : ∀ r, ¬ RootReference d.tree r) :
    ∃ t', labelCrossReferences.apply.run d.tree = .ok (references d.tree).length t' ∧
      Announced d.tree (labelOf d.tree) (references d.tree) t' := by
  have hp := Document.proper_of_parse h
  have hlabel : foundLabel d.tree = labelOf d.tree :=
    funext (foundLabel_eq hp (Document.legible_of_parse h))
  exact hlabel ▸ exists_announced hp fun ⟨r, hr⟩ => hroot r hr

/-- Two references side by side, one of them in its own target, and a name that is given twice. -/
theorem labelCrossReferences_of_adjacent : ∃ d t', Document.parse {}
      "<b><c id='i'><xref linkend='i'/><xref/><xref linkend='j'/></c><d id='i'/></b>" = .ok d ∧
    (∀ r, ¬ RootReference d.tree r) ∧
    labelCrossReferences.apply.run d.tree = .ok 2 t' ∧
    Announced d.tree (labelOf d.tree) (references d.tree) t' := by
  obtain ⟨d, hparse, hcount, htag⟩ : ∃ d, Document.parse {}
      "<b><c id='i'><xref linkend='i'/><xref/><xref linkend='j'/></c><d id='i'/></b>" = .ok d ∧
      (references d.tree).length = 2 ∧ d.tree.root.bind d.tree.tag? = some "b" :=
    exists_ok_of_any (by decide +kernel)
  have hroot : ∀ r, ¬ RootReference d.tree r := by
    rintro r ⟨hr, hx, -⟩
    rw [hr, Option.bind_some, hx] at htag
    simp at htag
  obtain ⟨t', hrun, ht'⟩ := labelCrossReferences_of_parse hparse hroot
  exact ⟨d, t', hparse, hroot, hcount ▸ hrun, ht'⟩

end BookMarkup.Rule
