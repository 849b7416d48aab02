import BookMarkup.Proofs.Document.Legible
import BookMarkup.Proofs.Rule.Ensures
import BookMarkup.Proofs.Rule.Vocabulary
import BookMarkup.Proofs.Text.Trim
import BookMarkup.Rule.Book

/-!
What rules make is legible. They create elements and texts that are not empty, they rename elements
only, and only elements have attributes for them to change. So the nodes of a tree that has been
read and rewritten are such as reading makes them.
-/

namespace BookMarkup.Rule

open BookMarkup.Tree

/-! ### Edits of labels -/

theorem byLabels_legible : ByLabels Legible :=
  fun _ _ h ht => ht.of_contentOf h

def LegibleWith (id : NodeId) (t : Tree) : Prop :=
  Legible t ∧ ∃ tag, t.tag? id = some tag

theorem byLabels_legibleWith (id : NodeId) : ByLabels (LegibleWith id) := by
  rintro t t' h ⟨ht, tag, htag⟩
  exact ⟨ht.of_contentOf h, tag, (tag?_eq_of_contentOf (h id)).trans htag⟩

theorem ensures_create_element (tag : String) :
    Ensures Legible (Edit.create (Node.element tag)) LegibleWith := by
  intro t a t' ht hrun
  rw [run_create, EStateM.Result.ok.injEq] at hrun
  obtain ⟨rfl, rfl⟩ := hrun
  refine ⟨ht.plant (.element tag Attributes.empty), tag, ?_⟩
  rw [tag?_eq, contentOf_plant, if_pos rfl]
  rfl

theorem maintains_create_text {value : String} (hv : value ≠ "") :
    Maintains Legible (Edit.create (Node.text value)) := by
  intro t a t' ht hrun
  rw [run_create, EStateM.Result.ok.injEq] at hrun
  exact hrun.2 ▸ ht.plant (.text hv)

theorem run_rename_ok {t t' : Tree} {id : NodeId} {tag : String}
    (h : (Edit.rename id tag).run t = .ok () t') :
    ∃ old, t.tag? id = some old ∧ t' = t.update id fun n => { n with name := tag } := by
  rw [run_rename] at h
  split at h
  · simp at h
  · next n hn =>
    split at h
    · next he =>
      exact ⟨n.name, by simp [tag?_of_get? hn, Node.tag?, he], (EStateM.Result.ok.inj h).2.symm⟩
    · simp at h

theorem ensures_rename (id : NodeId) (tag : String) :
    Ensures Legible (Edit.rename id tag) fun _ => LegibleWith id := by
  intro t a t' ht hrun
  obtain ⟨old, hold, rfl⟩ := run_rename_ok hrun
  exact ⟨ht.update_name hold tag, tag, by rw [tag?_update_name hold, if_pos rfl]⟩

theorem exists_tag?_update {t : Tree} {f : Node → Node} (hf : Node.Relabels f) (id : NodeId)
    {i : NodeId} (h : ∃ tag, t.tag? i = some tag) : ∃ tag, (t.update id f).tag? i = some tag := by
  obtain ⟨tag, ht⟩ := h
  obtain ⟨n, hn, he, _⟩ := exists_of_tag? ht
  rw [tag?, get?_update, hn]
  split
  · have he' : (f n).isElement = true := by rwa [Node.isElement, hf.kind]
    exact ⟨(f n).name, by simp [Node.tag?, he']⟩
  · exact ⟨n.name, by simp [Node.tag?, he]⟩

theorem maintains_rename (id : NodeId) (tag : String) : Maintains Legible (Edit.rename id tag) :=
  (ensures_rename id tag).mono (fun _ h => h) fun _ _ h => h.1

theorem maintains_rename_with (other id : NodeId) (tag : String) :
    Maintains (LegibleWith other) (Edit.rename id tag) := by
  intro t a t' ht hrun
  obtain ⟨old, hold, rfl⟩ := run_rename_ok hrun
  exact ⟨ht.1.update_name hold tag, exists_tag?_update (Node.relabels_name tag) id ht.2⟩

theorem maintains_removeAttribute (id : NodeId) (name : String) :
    Maintains Legible (Edit.removeAttribute id name) := by
  intro t a t' ht hrun
  rw [run_removeAttribute] at hrun
  split at hrun
  · simp at hrun
  · obtain ⟨_, rfl⟩ := EStateM.Result.ok.inj hrun
    exact ht.update_attributes id (f := fun a => a.erase name) (.inl rfl)

theorem maintains_removeAttribute_with (other id : NodeId) (name : String) :
    Maintains (LegibleWith other) (Edit.removeAttribute id name) := by
  intro t a t' ht hrun
  rw [run_removeAttribute] at hrun
  split at hrun
  · simp at hrun
  · obtain ⟨_, rfl⟩ := EStateM.Result.ok.inj hrun
    exact ⟨ht.1.update_attributes id (f := fun a => a.erase name) (.inl rfl),
      exists_tag?_update (Node.relabels_attributes fun a => a.erase name) id ht.2⟩

theorem maintains_renameAttribute (id : NodeId) (old new : String) :
    Maintains Legible (Edit.renameAttribute id old new) := by
  intro t a t' ht hrun
  rw [run_renameAttribute] at hrun
  split at hrun
  · simp at hrun
  · next n hn =>
    split at hrun
    · exact (EStateM.Result.ok.inj hrun).2 ▸ ht
    · next attributes hre =>
      obtain ⟨_, rfl⟩ := EStateM.Result.ok.inj hrun
      refine ht.update_attributes id (f := fun _ => attributes) (.inr ?_)
      -- A node that is no element has no attribute to be renamed.
      obtain ⟨c, hc, hcontent⟩ := ht id n.content (by rw [contentOf, hn, Option.map_some])
      by_cases he : c.isElement
      · have hkind := congrArg Node.kind hcontent
        have hn' : n.isElement = true := by
          rw [Node.isElement] at he ⊢
          exact (congrArg (· == Node.Kind.element) hkind).trans he
        exact ⟨n.name, by simp [tag?_of_get? hn, Node.tag?, hn']⟩
      · have hnone := congrArg Node.attributes hcontent
        have hempty : n.attributes = Attributes.empty :=
          hnone.trans (hc.attributes_eq (by simpa using he))
        simp [hempty, Attributes.rename, Attributes.get?, Attributes.empty] at hre
    · simp at hrun

theorem ensures_setAttribute (id : NodeId) (name value : String) :
    Ensures (LegibleWith id) (Edit.setAttribute id name value) fun _ => Legible := by
  intro t a t' ht hrun
  rw [Edit.setAttribute, run_change] at hrun
  split at hrun
  · obtain ⟨_, rfl⟩ := EStateM.Result.ok.inj hrun
    exact ht.1.update_attributes id (f := fun a => a.insert name value) (.inr ht.2)
  · simp at hrun

/-! ### Rules -/

theorem maintains_renameEach (pairs : List (String × String)) :
    Maintains Legible (renameEach pairs) := by
  induction pairs with
  | nil => exact maintains_pure 0
  | cons p pairs ih =>
      refine (maintains_select p.1).bind fun ids => Ensures.bind ?_ fun _ =>
        ih.bind fun _ => maintains_pure _
      exact maintains_tally (fun id => (maintains_rename id p.2).bind fun _ => maintains_pure 1) ids

theorem maintains_removeEach (paths : List String) : Maintains Legible (removeEach paths) := by
  induction paths with
  | nil => exact maintains_pure 0
  | cons path paths ih =>
      refine (maintains_select path).bind fun ids => Ensures.bind ?_ fun _ =>
        ih.bind fun _ => maintains_pure _
      exact maintains_tally
        (fun id => (byLabels_legible.detach id).bind fun _ => maintains_pure 1) ids

theorem maintains_removeAttributes (names : List String) (id : NodeId) :
    Maintains Legible (removeAttributes names id) := by
  induction names with
  | nil => exact maintains_pure 0
  | cons name names ih =>
      exact (maintains_removeAttribute id name).bind fun _ => ih.bind fun _ => maintains_pure _

theorem maintains_removeAttributesEach (pairs : List (String × List String)) :
    Maintains Legible (removeAttributesEach pairs) := by
  induction pairs with
  | nil => exact maintains_pure 0
  | cons p pairs ih =>
      exact (maintains_select p.1).bind fun ids =>
        (maintains_tally (maintains_removeAttributes p.2) ids).bind fun _ =>
          ih.bind fun _ => maintains_pure _

theorem maintains_gatherIntro (part : NodeId) : Maintains Legible (gatherIntro part) := by
  have hmove (intro child : NodeId) : Maintains Legible (moveToIntro intro child) :=
    maintains_get.bind fun t => maintains_ite
      ((byLabels_legible.appendChild intro child).bind fun _ => maintains_pure 1) (maintains_pure 0)
  have hintro (children : List NodeId) : Maintains Legible (introOf part children) := by
    refine maintains_get.bind fun t => ?_
    cases children.find? fun id => t.tag? id == some "partintro" with
    | some intro => exact maintains_pure _
    | none =>
        exact ((ensures_create_element "partintro").mono (fun _ h => h) fun _ _ h => h.1).bind
          fun intro => (byLabels_legible.insertChild part 1 intro).bind fun _ => maintains_pure _
  exact (maintains_ask _).bind fun children => (hintro children).bind fun r =>
    (maintains_tally (hmove r.1) children).bind fun _ => maintains_pure _

theorem ensures_propagateAnnotations (source wrapper : NodeId) :
    Ensures (LegibleWith wrapper) (propagateAnnotations source wrapper) fun _ => Legible := by
  refine (maintains_removeAttribute_with wrapper source "role").bind fun role => ?_
  have hpure : Ensures (LegibleWith wrapper) (pure () : Edit Unit) fun _ => Legible :=
    (maintains_pure ()).mono (fun _ h => h.1) fun _ _ h => h
  cases role with
  | none => exact hpure
  | some role =>
      simp only
      split
      · exact ensures_setAttribute wrapper "annotations" "below"
      · exact hpure

theorem maintains_formalize (block : NodeId) : Maintains Legible (formalize block) := by
  refine (maintains_ask _).bind fun para => ?_
  cases para with
  | none => exact maintains_pure 0
  | some para =>
      refine (maintains_ask _).bind fun formal => ?_
      cases formal with
      | none => exact maintains_pure 0
      | some formal =>
          refine (maintains_rename block "programlisting").bind fun _ =>
            (byLabels_legible.insertBeside 0 para block).bind fun _ =>
            (ensures_rename formal "example").bind fun _ =>
            (ensures_propagateAnnotations para formal).bind fun _ =>
            (maintains_ask _).bind fun left => maintains_ite ?_ (maintains_pure 1)
          exact (byLabels_legible.detach para).bind fun _ => maintains_pure 1

theorem maintains_wrapBlock (block : NodeId) : Maintains Legible (wrapBlock block) := by
  refine (maintains_ask _).bind fun parent => ?_
  cases parent with
  | none => exact maintains_pure 0
  | some parent =>
      refine maintains_get.bind fun t => maintains_ite (maintains_pure 0) ?_
      exact (ensures_create_element "informalexample").bind fun wrapper =>
        ((byLabels_legibleWith wrapper).insertBeside 0 block wrapper).bind fun _ =>
        (maintains_rename_with wrapper block "programlisting").bind fun _ =>
        ((byLabels_legibleWith wrapper).appendChild wrapper block).bind fun _ =>
        (ensures_propagateAnnotations block wrapper).bind fun _ => maintains_pure 1

theorem maintains_hoistFrom (anchors : List (NodeId × NodeId)) (ids : List NodeId) :
    Maintains Legible (hoistFrom anchors ids) := by
  induction ids generalizing anchors with
  | nil => exact maintains_pure 0
  | cons a rest ih =>
      refine (maintains_ask _).bind fun part => ?_
      cases part with
      | none => exact ih anchors
      | some part =>
          refine (maintains_ask _).bind fun outer => ?_
          cases outer with
          | none => exact ih anchors
          | some _ =>
              exact (byLabels_legible.insertBeside 1 _ a).bind fun _ =>
                (ih ((part, a) :: anchors)).bind fun _ => maintains_pure _

theorem maintains_attachCallouts (list : NodeId) : Maintains Legible (attachCallouts list) := by
  refine (maintains_ask _).bind fun previous => ?_
  cases previous with
  | none => exact maintains_pure 0
  | some previous =>
      refine maintains_get.bind fun t => ?_
      cases t.tag? previous with
      | none => exact maintains_pure 0
      | some tag =>
          exact maintains_ite ((byLabels_legible.appendChild previous list).bind fun _ =>
            maintains_pure 1) (maintains_pure 0)

theorem maintains_wrapCell (entry : NodeId) : Maintains Legible (wrapCell entry) := by
  refine (maintains_ask _).bind fun children => maintains_get.bind fun t =>
    maintains_ite (maintains_pure 0) ?_
  exact ((ensures_create_element "para").mono (fun _ h => h) fun _ _ h => h.1).bind fun para =>
    (maintains_forM (byLabels_legible.appendChild para) children).bind fun _ =>
      (byLabels_legible.appendChild entry para).bind fun _ => maintains_pure 1

theorem maintains_flattenAttribution (a : NodeId) :
    Maintains Legible (flattenAttribution a) := by
  refine (maintains_ask _).bind fun children => Ensures.bind
    (maintains_mapM (fun child => maintains_ask _) children) fun texts =>
    (maintains_forM byLabels_legible.detach children).bind fun _ => ?_
  split
  · exact maintains_pure 1
  · next hne =>
    refine (maintains_create_text ?_).bind fun text =>
      (byLabels_legible.appendChild a text).bind fun _ => maintains_pure 1
    exact (Text.trimmed_intercalate_trim ", " (by simpa using hne)).2

theorem maintains_wrapQuote (quote : NodeId) : Maintains Legible (wrapQuote quote) := by
  refine (maintains_ask _).bind fun parent => ?_
  cases parent with
  | none => exact maintains_pure 0
  | some parent =>
      refine maintains_get.bind fun t => maintains_ite (maintains_pure 0) ?_
      exact ((ensures_create_element "para").mono (fun _ h => h) fun _ _ h => h.1).bind fun para =>
        (byLabels_legible.insertBeside 0 quote para).bind fun _ =>
        (byLabels_legible.appendChild para quote).bind fun _ => maintains_pure 1

theorem maintains_labelReference (nodes : List Node) (xref : NodeId) :
    Maintains Legible (labelReference nodes xref) := by
  refine maintains_get.bind fun t => ?_
  cases t.attribute? xref "linkend" with
  | none => exact maintains_pure 0
  | some linkend =>
      refine (maintains_create_text ?_).bind fun text =>
        (byLabels_legible.insertBeside 0 xref text).bind fun _ => maintains_pure 1
      simp

theorem maintains_bookRules : ∀ r ∈ bookRules, Maintains Legible r.apply := by
  rw [bookRules]
  simp only [List.forall_mem_cons, List.not_mem_nil, false_imp_iff, implies_true, and_true]
  refine ⟨maintains_renameEach _, ?_, ?_, ?_, ?_, ?_, ?_, ?_, ?_, ?_, ?_, ?_, ?_⟩
  · exact (maintains_removeEach _).bind fun _ =>
      (maintains_removeAttributesEach _).bind fun _ => maintains_pure _
  · exact (maintains_select _).bind (maintains_tally maintains_gatherIntro)
  · refine (maintains_select _).bind (maintains_tally fun id => ?_)
    exact (maintains_renameAttribute id "language" "format").bind fun _ => maintains_pure _
  · exact (maintains_select _).bind (maintains_tally maintains_formalize)
  · exact (maintains_select _).bind (maintains_tally maintains_wrapBlock)
  · exact (maintains_select _).bind (maintains_hoistFrom [])
  · exact (maintains_select _).bind (maintains_tally maintains_attachCallouts)
  · exact (maintains_select _).bind (maintains_tally maintains_wrapCell)
  · exact (maintains_select _).bind (maintains_tally maintains_flattenAttribution)
  · exact (maintains_select _).bind (maintains_tally maintains_wrapQuote)
  · exact maintains_get.bind fun t =>
      (maintains_select _).bind (maintains_tally (maintains_labelReference t.live))
  · exact maintains_removeEach _

theorem legible_of_run_bookRules {t t' : Tree} {n : Nat} (h : Legible t)
    (hrun : (runAll bookRules).run t = .ok n t') : Legible t' :=
  of_runAll maintains_bookRules h hrun

end BookMarkup.Rule
