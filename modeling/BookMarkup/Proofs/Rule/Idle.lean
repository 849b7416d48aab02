import BookMarkup.Proofs.Rule.Callout
import BookMarkup.Proofs.Rule.FormalListing
import BookMarkup.Proofs.Rule.InformalListing
import BookMarkup.Proofs.Rule.Paragraph
import BookMarkup.Proofs.Rule.Part
import BookMarkup.Proofs.Rule.Vocabulary
import BookMarkup.Rule.Book

/-!
Rules with nothing to do. An edit is idle on a tree if it succeeds there and leaves the tree as it is;
for each rule there is a condition on what it looks at under which it is so.
-/

namespace BookMarkup.Rule

open BookMarkup.Tree

/-- The edit succeeds on the tree, leaves it as it is and counts nothing. -/
def Idle (e : Edit Nat) (t : Tree) : Prop :=
  e.run t = .ok 0 t

section Idle

variable {α : Type} {t : Tree}

theorem idle_pure : Idle (pure 0) t :=
  rfl

theorem idle_bind {e : Edit α} {f : α → Edit Nat} {a : α} (he : e.run t = .ok a t)
    (hf : Idle (f a) t) : Idle (e >>= f) t := by
  rw [Idle, EStateM.run_bind, he]
  exact hf

theorem Idle.bind {e : Edit Nat} {f : Nat → Edit Nat} (he : Idle e t) (hf : Idle (f 0) t) :
    Idle (e >>= f) t :=
  idle_bind he hf

theorem idle_tally {f : NodeId → Edit Nat} {ids : List NodeId} (h : ∀ id ∈ ids, Idle (f id) t) :
    Idle (Edit.tally f ids) t := by
  induction ids with
  | nil => exact idle_pure
  | cons id ids ih =>
      exact (h id List.mem_cons_self).bind
        ((ih fun i hi => h i (List.mem_cons_of_mem id hi)).bind idle_pure)

theorem idle_select_tally {path : String} {s : Selector} (hs : Selector.parse path = .ok s)
    {f : NodeId → Edit Nat} (h : ∀ id ∈ s.select t, Idle (f id) t) :
    Idle (do Edit.tally f (← Edit.select path) : Edit Nat) t :=
  idle_bind (run_select hs t) (idle_tally h)

theorem runAll_of_idle {rules : List Rule} (h : ∀ r ∈ rules, Idle r.apply t) :
    (runAll rules).run t = .ok 0 t := by
  induction rules with
  | nil => rfl
  | cons r rules ih =>
      rw [runAll_cons_of_ok (h r List.mem_cons_self),
        ih fun q hq => h q (List.mem_cons_of_mem r hq)]

end Idle

/-! ### Vocabulary -/

section Vocabulary

variable {t : Tree}

theorem idle_renameEach {pairs : List (String × String)}
    (h : ∀ p ∈ pairs, ∃ s, Selector.parse p.1 = .ok s ∧ s.select t = []) :
    Idle (renameEach pairs) t := by
  induction pairs with
  | nil => exact idle_pure
  | cons p pairs ih =>
      obtain ⟨s, hs, hnil⟩ := h p List.mem_cons_self
      refine idle_bind (run_select hs t) ?_
      rw [hnil]
      exact idle_pure.bind
        ((ih fun q hq => h q (List.mem_cons_of_mem p hq)).bind idle_pure)

theorem idle_removeEach {paths : List String}
    (h : ∀ path ∈ paths, ∃ s, Selector.parse path = .ok s ∧ s.select t = []) :
    Idle (removeEach paths) t := by
  induction paths with
  | nil => exact idle_pure
  | cons path paths ih =>
      obtain ⟨s, hs, hnil⟩ := h path List.mem_cons_self
      refine idle_bind (run_select hs t) ?_
      rw [hnil]
      exact idle_pure.bind
        ((ih fun q hq => h q (List.mem_cons_of_mem path hq)).bind idle_pure)

theorem erase_eq_self {a : Attributes} {name : String} (h : a.get? name = none) :
    a.erase name = a := by
  rw [Attributes.get?_eq_none_iff] at h
  have hfilter : a.entries.filter (·.1 ≠ name) = a.entries :=
    List.filter_eq_self.2 fun e he => by
      have hne : e.1 ≠ name := fun hen => h (hen ▸ List.mem_map_of_mem he)
      simpa using hne
  cases a
  rw [Attributes.erase, Attributes.mk.injEq]
  exact hfilter

theorem idle_removeAttributes {names : List String} {id : NodeId} (hid : id < t.nodes.size)
    (h : ∀ name ∈ names, t.attribute? id name = none) : Idle (removeAttributes names id) t := by
  obtain ⟨n, hn⟩ := Option.isSome_iff_exists.1 (get?_isSome_iff.2 hid)
  induction names with
  | nil => exact idle_pure
  | cons name names ih =>
      have hgone : n.attributes.get? name = none := by
        have ha := h name List.mem_cons_self
        rwa [attribute?, hn] at ha
      have hself : (t.update id fun n => { n with attributes := n.attributes.erase name }) = t :=
        update_eq_self fun m hm => by
          rw [hn, Option.some.injEq] at hm
          subst hm
          rw [erase_eq_self hgone]
      have hrun : (Edit.removeAttribute id name).run t = .ok none t := by
        rw [run_removeAttribute, hn]
        simp only [hself]
        rw [Node.attribute?, hgone]
      exact idle_bind hrun ((ih fun key hkey => h key (List.mem_cons_of_mem name hkey)).bind
        idle_pure)

theorem idle_removeAttributesEach (ht : Proper t) {pairs : List (String × List String)}
    (h : ∀ p ∈ pairs, ∃ s, Selector.parse p.1 = .ok s ∧
      ∀ i ∈ s.select t, ∀ name ∈ p.2, t.attribute? i name = none) :
    Idle (removeAttributesEach pairs) t := by
  induction pairs with
  | nil => exact idle_pure
  | cons p pairs ih =>
      obtain ⟨s, hs, hgone⟩ := h p List.mem_cons_self
      have hfirst : Idle (Edit.tally (removeAttributes p.2) (s.select t)) t :=
        idle_tally fun i hi => idle_removeAttributes
          (ht.lt_of_live (ht.forest.mem_select.1 hi).1) (hgone i hi)
      exact idle_bind (run_select hs t) (hfirst.bind
        ((ih fun q hq => h q (List.mem_cons_of_mem p hq)).bind idle_pure))

theorem idle_renameAttribute {old new : String} {id : NodeId} (hid : id < t.nodes.size)
    (h : t.attribute? id old = none) :
    Idle (do return if ← Edit.renameAttribute id old new then 1 else 0 : Edit Nat) t := by
  obtain ⟨n, hn⟩ := Option.isSome_iff_exists.1 (get?_isSome_iff.2 hid)
  have hgone : n.attributes.get? old = none := by rwa [attribute?, hn] at h
  have hrun : (Edit.renameAttribute id old new).run t = .ok false t := by
    rw [run_renameAttribute, hn]
    simp only [Attributes.rename, hgone]
  exact idle_bind hrun idle_pure

end Vocabulary

/-! ### Parts -/

section Part

variable {t : Tree} (h : Proper t)

include h

theorem idle_gatherIntro {part intro : NodeId} (hi : t.parentOf intro = some part)
    (hit : t.tag? intro = some "partintro")
    (hc : ∀ c, t.parentOf c = some part → isIntroContent (t.tag? c) = false) :
    Idle (gatherIntro part) t := by
  have hmem : intro ∈ t.childrenOf part := h.forest.mem_childrenOf.2 hi
  have hfound : ((t.childrenOf part).find? fun id => t.tag? id == some "partintro").isSome :=
    List.find?_isSome.2 ⟨intro, hmem, by simp [hit]⟩
  obtain ⟨first, hfirst⟩ := Option.isSome_iff_exists.1 hfound
  have hintro : (introOf part (t.childrenOf part)).run t = .ok (first, 0) t := by
    simp only [introOf, EStateM.run_bind, EStateM.run_get, hfirst, EStateM.run_pure]
  refine idle_bind (run_childIds (h.forest.parent_lt hi)) (idle_bind hintro ?_)
  refine (idle_tally fun c hm => ?_).bind idle_pure
  refine idle_bind (EStateM.run_get t) ?_
  rw [hc c (h.forest.mem_childrenOf.1 hm)]
  exact idle_pure

/-- Appendices stay in parts without parents. -/
theorem idle_hoistFrom {anchors : List (NodeId × NodeId)} {ids : List NodeId}
    (hids : ∀ a ∈ ids, ∃ part, t.parentOf a = some part ∧ t.parentOf part = none) :
    Idle (hoistFrom anchors ids) t := by
  induction ids with
  | nil => exact idle_pure
  | cons a rest ih =>
      obtain ⟨part, hp, hnone⟩ := hids a List.mem_cons_self
      have hpart := run_parent? (lt_size_of_parentOf hp)
      have houter := run_parent? (h.forest.parent_lt hp)
      rw [hp] at hpart
      rw [hnone] at houter
      exact idle_bind hpart (idle_bind houter (ih fun b hb => hids b (List.mem_cons_of_mem a hb)))

end Part

/-! ### Listings -/

section Listing

variable {t : Tree}

theorem idle_wrapBlock {b : NodeId} (hb : b < t.nodes.size)
    (hp : ∀ p, t.parentOf b = some p → isListingWrapper (t.tag? p) = true) :
    Idle (wrapBlock b) t := by
  refine idle_bind (run_parent? hb) ?_
  cases hpar : t.parentOf b with
  | none => exact idle_pure
  | some p =>
      refine idle_bind (EStateM.run_get t) ?_
      rw [if_pos (hp p hpar)]
      exact idle_pure

theorem idle_attachCallouts (h : Proper t) {list : NodeId} (hl : list < t.nodes.size)
    (hp : ∀ p prev tag, [prev, list] <:+: t.childrenOf p → t.tag? prev = some tag →
      "example".toList.isSuffixOf tag.toList = false) :
    Idle (attachCallouts list) t := by
  refine idle_bind (run_previousSibling? h hl) ?_
  cases hlast : (earlier t list).getLast? with
  | none => exact idle_pure
  | some prev =>
      obtain ⟨p, _, hpair⟩ := pair_of_getLast?_earlier h hlast
      refine idle_bind (EStateM.run_get t) ?_
      cases ht : t.tag? prev with
      | none => exact idle_pure
      | some tag =>
          simp only [hp p prev tag hpair ht, Bool.false_eq_true, if_false]
          exact idle_pure

end Listing

/-! ### Paragraphs -/

section Paragraph

variable {t : Tree}

theorem idle_wrapCell {entry c : NodeId} (he : entry < t.nodes.size)
    (hc : t.childrenOf entry = [c]) (ht : t.tag? c = some "para") : Idle (wrapCell entry) t := by
  refine idle_bind (run_childIds he) (idle_bind (EStateM.run_get t) ?_)
  simp only [hc, ht, beq_self_eq_true, if_true]
  exact idle_pure

theorem idle_wrapQuote {q : NodeId} (hq : q < t.nodes.size)
    (hp : ∀ p, t.parentOf q = some p → t.tag? p = some "para") : Idle (wrapQuote q) t := by
  refine idle_bind (run_parent? hq) ?_
  cases hpar : t.parentOf q with
  | none => exact idle_pure
  | some p =>
      refine idle_bind (EStateM.run_get t) ?_
      simp only [hp p hpar, beq_self_eq_true, if_true]
      exact idle_pure

theorem idle_labelReference {nodes : List Node} {xref : NodeId}
    (h : t.attribute? xref "linkend" = none) : Idle (labelReference nodes xref) t := by
  refine idle_bind (EStateM.run_get t) ?_
  simp only [h]
  exact idle_pure

end Paragraph

/-! ### Rules -/

section Rules

variable {t : Tree} (h : Proper t)

include h

theorem idle_partIntro (htidy : Tidied t)
    (hintro : ∀ p, t.Live p → t.tag? p = some "part" → HasIntro t p) : Idle partIntro.apply t := by
  have hn : Selector.names "part" = [["part"]] := by cbv
  refine idle_select_tally (Selector.parse_of_names hn rfl) fun p hp => ?_
  obtain ⟨hl, ha⟩ := h.forest.mem_select.1 hp
  obtain ⟨tag, htag, hm⟩ := Selector.accepts_one_iff.1 ha
  rw [List.mem_singleton.1 hm] at htag
  obtain ⟨c, hc, hct⟩ := hintro p hl htag
  exact idle_gatherIntro h hc hct (htidy p hl htag)

theorem idle_codeLanguage
    (hgone : ∀ b, t.Live b → IsCode t b → t.attribute? b "language" = none) :
    Idle codeLanguage.apply t := by
  have hn : Selector.names codeBlocks = [["screen", "programlisting"]] := by cbv
  refine idle_select_tally (Selector.parse_of_names hn rfl) fun b hb => ?_
  obtain ⟨hl, ha⟩ := h.forest.mem_select.1 hb
  exact idle_renameAttribute (h.lt_of_live hl) (hgone b hl (Selector.accepts_one_iff.1 ha))

theorem idle_informalListings
    (hlisted : ∀ b p, t.Live b → IsCode t b → t.parentOf b = some p →
      isListingWrapper (t.tag? p) = true) : Idle informalListings.apply t := by
  have hn : Selector.names codeBlocks = [["screen", "programlisting"]] := by cbv
  refine idle_select_tally (Selector.parse_of_names hn rfl) fun b hb => ?_
  obtain ⟨hl, ha⟩ := h.forest.mem_select.1 hb
  exact idle_wrapBlock (h.lt_of_live hl) fun p => hlisted b p hl (Selector.accepts_one_iff.1 ha)

theorem idle_wrapBlockquotes
    (hquoted : ∀ q p, t.Live q → t.tag? q = some "blockquote" → t.parentOf q = some p →
      t.tag? p = some "para") : Idle wrapBlockquotes.apply t := by
  have hn : Selector.names "blockquote" = [["blockquote"]] := by cbv
  refine idle_select_tally (Selector.parse_of_names hn rfl) fun q hq => ?_
  obtain ⟨hl, ha⟩ := h.forest.mem_select.1 hq
  obtain ⟨tag, htag, hm⟩ := Selector.accepts_one_iff.1 ha
  rw [List.mem_singleton.1 hm] at htag
  exact idle_wrapQuote (h.lt_of_live hl) fun p => hquoted q p hl htag

end Rules

end BookMarkup.Rule
