import BookMarkup.Proofs.Document.Reading
import BookMarkup.Proofs.Rule.Part
import BookMarkup.Proofs.Tree.Precedence
import Mathlib.Algebra.BigOperators.Group.List.Basic
import Mathlib.Data.List.Find

/-!
What the rule for introductions makes of a tree, told for all parts at once. A part that is to come
still has the children that it had, since the loop changes the children of parts and introductions
only, and no node is either to two parts. So it does to each part what it would do to it alone, also
where one part is within what another one has moved.
-/

namespace BookMarkup.Rule

open BookMarkup.Tree

def partsOf (t : Tree) : List NodeId :=
  (t.live.map Node.id).filter fun i => t.tag? i == some "part"

def bareParts (t : Tree) (parts : List NodeId) : List NodeId :=
  parts.filter fun p => (intro? t p).isNone

/-- The introduction of a part: the first that it has, or else a new node. The new ones are numbered in
the order of their parts. -/
def introNumber (t : Tree) (parts : List NodeId) (p : NodeId) : NodeId :=
  (intro? t p).getD (t.nodes.size + (bareParts t parts).idxOf p)

/-- The tree `t'` is `t` with all that belongs in the introductions of the parts at the end of them. -/
structure Prefaced (t : Tree) (parts : List NodeId) (t' : Tree) : Prop where
  proper : Proper t'
  root : t'.root = t.root
  size : t'.nodes.size = t.nodes.size + (bareParts t parts).length
  contentOf : ∀ i < t.nodes.size, t'.contentOf i = t.contentOf i
  new : ∀ p ∈ bareParts t parts, t'.contentOf (introNumber t parts p) =
    some { Node.element "partintro" with id := introNumber t parts p }
  part : ∀ p ∈ parts, t'.childrenOf p =
    (withIntro t p (introNumber t parts p)).filter fun c => !isIntroContent (t.tag? c)
  intro : ∀ p ∈ parts, t'.childrenOf (introNumber t parts p) =
    t.childrenOf (introNumber t parts p) ++ introContent t p
  other : ∀ i < t.nodes.size, i ∉ parts → (∀ p ∈ parts, intro? t p ≠ some i) →
    t'.childrenOf i = t.childrenOf i

section Prefaced

variable {t u u' : Tree} {parts : List NodeId} {p q : NodeId}

theorem Prefaced.refl (h : Proper t) : Prefaced t [] t where
  proper := h
  root := rfl
  size := rfl
  contentOf _ _ := rfl
  new _ hp := absurd hp List.not_mem_nil
  part _ hp := absurd hp List.not_mem_nil
  intro _ hp := absurd hp List.not_mem_nil
  other _ _ _ _ := rfl

/-! ### The numbers of introductions -/

theorem mem_bareParts : p ∈ bareParts t parts ↔ p ∈ parts ∧ intro? t p = none := by
  rw [bareParts, List.mem_filter, Option.isNone_iff_eq_none]

theorem bareParts_append (parts : List NodeId) (p : NodeId) :
    bareParts t (parts ++ [p]) =
      bareParts t parts ++ if (intro? t p).isSome then [] else [p] := by
  rw [bareParts, List.filter_append, List.filter_singleton, bareParts]
  cases intro? t p <;> rfl

theorem length_bareParts_append (parts : List NodeId) (p : NodeId) :
    (bareParts t (parts ++ [p])).length = (bareParts t parts).length + introsMade t p := by
  rw [bareParts_append, List.length_append, introsMade]
  split <;> rfl

theorem introNumber_append_of_mem (hq : q ∈ parts) (p : NodeId) :
    introNumber t (parts ++ [p]) q = introNumber t parts q := by
  rw [introNumber, introNumber, bareParts_append]
  cases hn : intro? t q with
  | none => rw [List.idxOf_append_of_mem (mem_bareParts.2 ⟨hq, hn⟩)]
  | some intro => rfl

theorem Prefaced.introNumber_append (h : Prefaced t parts u) (hp : p ∉ parts) :
    introNumber t (parts ++ [p]) p = (intro? t p).getD u.nodes.size := by
  rw [introNumber, bareParts_append]
  cases intro? t p with
  | none =>
      have hbare : p ∉ bareParts t parts := fun hm => hp (mem_bareParts.1 hm).1
      rw [Option.isSome_none, if_neg Bool.false_ne_true]
      exact (numberFor_append_self t hbare).trans h.size.symm
  | some intro => rfl

theorem introNumber_cases (ht : Proper t) (hq : q ∈ parts) :
    (t.parentOf (introNumber t parts q) = some q ∧
      t.tag? (introNumber t parts q) = some "partintro") ∨
    t.nodes.size ≤ introNumber t parts q ∧
      introNumber t parts q < t.nodes.size + (bareParts t parts).length := by
  rw [introNumber]
  cases hn : intro? t q with
  | none =>
      exact .inr ⟨Nat.le_add_right _ _, numberFor_lt t (mem_bareParts.2 ⟨hq, hn⟩)⟩
  | some intro => exact .inl ⟨parentOf_of_intro? ht hn, tag?_of_intro? hn⟩

theorem Prefaced.introNumber_lt (h : Prefaced t parts u) (ht : Proper t) (hq : q ∈ parts) :
    introNumber t parts q < u.nodes.size := by
  rw [h.size]
  rcases introNumber_cases ht hq with ⟨_, htag⟩ | ⟨_, hlt⟩
  · exact Nat.lt_add_right _ (lt_size_of_tag? htag)
  · exact hlt

theorem introNumber_ne_part (ht : Proper t) (hq : q ∈ parts) (hp : t.tag? p = some "part") :
    introNumber t parts q ≠ p := by
  rintro rfl
  rcases introNumber_cases ht hq with ⟨_, htag⟩ | ⟨hle, _⟩
  · simp [hp] at htag
  · exact absurd (lt_size_of_tag? hp) (Nat.not_lt.2 hle)

theorem Prefaced.introNumber_ne (h : Prefaced t parts u) (ht : Proper t) (hq : q ∈ parts)
    (hqp : q ≠ p) : introNumber t parts q ≠ (intro? t p).getD u.nodes.size := by
  cases hn : intro? t p with
  | none => exact Nat.ne_of_lt (h.introNumber_lt ht hq)
  | some intro =>
      rintro heq
      rw [Option.getD_some] at heq
      have hpar := parentOf_of_intro? ht hn
      rcases introNumber_cases ht hq with ⟨hpar', _⟩ | ⟨hle, _⟩
      · rw [heq, hpar, Option.some.injEq] at hpar'
        exact hqp hpar'.symm
      · rw [heq] at hle
        exact absurd (lt_size_of_parentOf hpar) (Nat.not_lt.2 hle)

/-! ### One more part -/

section Step

variable (h : Prefaced t parts u) (ht : Proper t) (hparts : ∀ q ∈ parts, t.tag? q = some "part")
  (hp : t.tag? p = some "part") (hpp : p ∉ parts)

include h ht hp hpp

/-- A part that is to come has the children that it had, with the tags that they had. -/
theorem Prefaced.views_eq : u.childrenOf p = t.childrenOf p ∧ intro? u p = intro? t p ∧
    introContent u p = introContent t p := by
  have hchild : u.childrenOf p = t.childrenOf p :=
    h.other p (lt_size_of_tag? hp) hpp fun q _ hq => by
      have htag := tag?_of_intro? hq
      simp [hp] at htag
  have htag : ∀ c ∈ t.childrenOf p, u.tag? c = t.tag? c := fun c hc =>
    tag?_eq_of_contentOf (h.contentOf c (lt_size_of_parentOf (ht.forest.mem_childrenOf.1 hc)))
  refine ⟨hchild, ?_, ?_⟩
  · rw [intro?, hchild, List.find?_congr fun c hc => by rw [htag c hc], intro?]
  · rw [introContent, hchild, List.filter_congr fun c hc => by rw [htag c hc], introContent]

theorem Prefaced.filter_withIntro :
    ((withIntro u p u.nodes.size).filter fun c => !isIntroContent (u.tag? c)) =
      (withIntro t p (introNumber t (parts ++ [p]) p)).filter
        fun c => !isIntroContent (t.tag? c) := by
  obtain ⟨hkids, hintro, -⟩ := h.views_eq ht hp hpp
  have hlist : withIntro u p u.nodes.size = withIntro t p (introNumber t (parts ++ [p]) p) := by
    rw [withIntro, hkids, hintro, withIntro, h.introNumber_append hpp]
    cases intro? t p <;> rfl
  rw [← hlist]
  refine List.filter_congr fun c hc => ?_
  rcases mem_withIntro hc with hc | rfl
  · rw [hkids, ht.forest.mem_childrenOf] at hc
    rw [tag?_eq_of_contentOf (h.contentOf c (lt_size_of_parentOf hc))]
  · rw [tag?_eq_none_of_size_le (Nat.le_refl _),
      tag?_eq_none_of_size_le (h.size ▸ Nat.le_add_right _ _)]

include hparts

omit hp in
theorem Prefaced.childrenOf_intro : u.childrenOf (introNumber t (parts ++ [p]) p) =
    t.childrenOf (introNumber t (parts ++ [p]) p) := by
  rw [h.introNumber_append hpp]
  cases hn : intro? t p with
  | none =>
      rw [Option.getD_none, childrenOf_eq_nil_of_size_le (Nat.le_refl _),
        childrenOf_eq_nil_of_size_le (h.size ▸ Nat.le_add_right _ _)]
  | some intro =>
      have htag := tag?_of_intro? hn
      refine h.other intro (lt_size_of_tag? htag) (fun hm => ?_) fun q hq hqn => ?_
      · simp [hparts intro hm] at htag
      · have hpar := parentOf_of_intro? ht hn
        rw [parentOf_of_intro? ht hqn, Option.some.injEq] at hpar
        exact hpp (hpar ▸ hq)

theorem Prefaced.step (hu : IntroFilled u p u') : Prefaced t (parts ++ [p]) u' := by
  obtain ⟨hi, hsize, hnew, hchild⟩ := hu
  obtain ⟨-, hintro, hcontent⟩ := h.views_eq ht hp hpp
  have hnumber := h.introNumber_append hpp
  have hlt {i : NodeId} (hi : i < t.nodes.size) : i < u.nodes.size := by
    rw [h.size]
    exact Nat.lt_add_right _ hi
  have hmade : introsMade u p = introsMade t p := by rw [introsMade, hintro, introsMade]
  rw [hmade] at hsize
  rw [hintro, ← hnumber] at hchild
  have hmem {q : NodeId} : q ∈ parts ++ [p] ↔ q ∈ parts ∨ q = p := by simp
  have hne {q : NodeId} (hq : q ∈ parts) : q ≠ p := ne_of_mem_of_not_mem hq hpp
  have hself := introNumber_ne_part ht (hmem.2 (.inr rfl)) hp
  refine ⟨hi.rearranged.proper, hi.rearranged.root.trans h.root, ?_, fun i hit => ?_,
    fun q hq => ?_, fun q hq => ?_, fun q hq => ?_, fun i hit hq hn => ?_⟩
  · rw [hsize, h.size, length_bareParts_append, Nat.add_assoc]
  · rw [hi.contentOf i (hlt hit), h.contentOf i hit]
  · obtain ⟨hq, hbare⟩ := mem_bareParts.1 hq
    rcases hmem.1 hq with hq | rfl
    · rw [introNumber_append_of_mem hq, hi.contentOf _ (h.introNumber_lt ht hq),
        h.new q (mem_bareParts.2 ⟨hq, hbare⟩)]
    · rw [hnumber, hbare, Option.getD_none, hnew (hintro.trans hbare)]
  · rcases hmem.1 hq with hq | rfl
    · have hqn : q ≠ introNumber t (parts ++ [p]) p :=
        (introNumber_ne_part ht (hmem.2 (.inr rfl)) (hparts q hq)).symm
      rw [introNumber_append_of_mem hq, hchild, if_neg (hne hq), if_neg hqn, h.part q hq]
    · rw [hchild, if_pos rfl, h.filter_withIntro ht hp hpp]
  · rcases hmem.1 hq with hq | rfl
    · have hqn := h.introNumber_ne ht hq (hne hq)
      rw [← hnumber] at hqn
      rw [introNumber_append_of_mem hq, hchild, if_neg (introNumber_ne_part ht hq hp), if_neg hqn,
        h.intro q hq]
    · rw [hchild, if_neg hself, if_pos rfl, hcontent, h.childrenOf_intro ht hparts hpp]
  · rw [hmem, not_or] at hq
    have hin : i ≠ introNumber t (parts ++ [p]) p := by
      rw [hnumber]
      cases hpi : intro? t p with
      | none => exact Nat.ne_of_lt (hlt hit)
      | some intro =>
          rintro rfl
          exact hn p (hmem.2 (.inr rfl)) hpi
    rw [hchild, if_neg hq.2, if_neg hin]
    exact h.other i hit hq.1 fun q hq => hn q (hmem.2 (.inl hq))

end Step

end Prefaced

theorem exists_prefaced {t : Tree} (h : Proper t) :
    ∃ t', partIntro.apply.run t = .ok ((bareParts t (partsOf t)).length +
        ((partsOf t).map fun p => (introContent t p).length).sum) t' ∧
      Prefaced t (partsOf t) t' := by
  have hn : Selector.names "part" = [["part"]] := by cbv
  let s := Selector.mk [["part"]]
  have hmem (p : NodeId) : p ∈ s.select t ↔ t.Live p ∧ t.tag? p = some "part" := by
    rw [h.forest.mem_select, Selector.accepts_one_iff]
    simp
  have hparts : partsOf t = s.select t := by
    rw [select_eq_filter, partsOf]
    refine List.filter_congr fun p _ => ?_
    rw [Bool.eq_iff_iff, Selector.accepts_one_iff, beq_iff_eq]
    simp
  have hcount : (bareParts t (partsOf t)).length +
      ((partsOf t).map fun p => (introContent t p).length).sum =
        ((s.select t).map fun p => introsMade t p + (introContent t p).length).sum := by
    rw [List.sum_map_add, hparts, bareParts, ← sum_map_counted]
    congr 3
    funext p
    rw [introsMade]
    cases intro? t p <;> rfl
  rw [hcount, hparts]
  refine run_select_tally_prefix (Selector.parse_of_names hn rfl) h.forest gatherIntro _
    (Prefaced t) (fun done p rest u hids hpd hu => ?_) (.refl h)
  have hp : t.tag? p = some "part" := ((hmem p).1 (hids ▸ by simp)).2
  have hdone : ∀ q ∈ done, t.tag? q = some "part" := fun q hq =>
    ((hmem q).1 (hids ▸ List.mem_append_left _ hq)).2
  have hpu : u.tag? p = some "part" :=
    (tag?_eq_of_contentOf (hu.contentOf p (lt_size_of_tag? hp))).trans hp
  obtain ⟨u', hrun, hfilled⟩ := run_gatherIntro hu.proper hpu
  obtain ⟨-, hintro, hcontent⟩ := hu.views_eq h hp hpd
  refine ⟨u', ?_, hu.step h hdone hp hpd hfilled⟩
  rw [hrun, introsMade, hintro, hcontent, introsMade]

/-- The rule for introductions on a document: each part keeps, in order, the children that do not
belong in its introduction, which are followed there by those that do. -/
theorem partIntro_of_parse {o : Reader.Options} {text : String} {d : Document}
    (h : Document.parse o text = .ok d) :
    ∃ t', partIntro.apply.run d.tree = .ok ((bareParts d.tree (partsOf d.tree)).length +
        ((partsOf d.tree).map fun p => (introContent d.tree p).length).sum) t' ∧
      Prefaced d.tree (partsOf d.tree) t' :=
  exists_prefaced (Document.proper_of_parse h)

/-- A part in a list that goes into the introduction of the part around it. -/
theorem partIntro_of_nested_parts : ∃ d t',
    Document.parse {} "<part><a/><itemizedlist><part><para/></part></itemizedlist></part>" = .ok d ∧
    partIntro.apply.run d.tree = .ok 4 t' ∧ Prefaced d.tree (partsOf d.tree) t' := by
  obtain ⟨d, hparse, hcount⟩ : ∃ d,
      Document.parse {} "<part><a/><itemizedlist><part><para/></part></itemizedlist></part>" =
        .ok d ∧ (bareParts d.tree (partsOf d.tree)).length +
          ((partsOf d.tree).map fun p => (introContent d.tree p).length).sum = 4 :=
    exists_ok_of_any (by decide +kernel)
  obtain ⟨t', hrun, hp⟩ := partIntro_of_parse hparse
  exact ⟨d, t', hparse, hcount ▸ hrun, hp⟩

end BookMarkup.Rule
