import BookMarkup.Proofs.Document.Reading
import BookMarkup.Proofs.Rule.Prefaced

/-!
What the rule for appendices makes of a tree, told for all appendices at once. An appendix that a
part below the top holds follows the part, after those that were before it in the part. The loop
keeps in mind which appendix it has placed last for a part. That is always the last one of the part
that has had its turn, since siblings come in their order.
-/

namespace BookMarkup.Rule

open BookMarkup.Tree

def isHoistable (t : Tree) (a : NodeId) : Bool :=
  t.tag? a == some "appendix" &&
    (t.parentOf a).any fun p => t.tag? p == some "part" && t.root != some p

/-- The appendices of the parts of a document that are not its root, in document order. -/
def hoistable (t : Tree) : List NodeId :=
  (t.live.map Node.id).filter (isHoistable t)

def heldBy (t : Tree) (appendices : List NodeId) (i : NodeId) : List NodeId :=
  (t.childrenOf i).filter (· ∈ appendices)

/-- The tree `t'` is `t` with these appendices out of their parts: among the children of any node
none of them is left, and each child that is left is followed by those that were in it. -/
structure Relieved (t : Tree) (appendices : List NodeId) (t' : Tree) : Prop where
  proper : Proper t'
  root : t'.root = t.root
  size : t'.nodes.size = t.nodes.size
  contentOf : ∀ i, t'.contentOf i = t.contentOf i
  parentOf : ∀ i, t'.parentOf i =
    if i ∈ appendices then (t.parentOf i).bind t.parentOf else t.parentOf i
  childrenOf : ∀ i, t'.childrenOf i =
    ((t.childrenOf i).filter (· ∉ appendices)).flatMap fun c => c :: heldBy t appendices c

def InPart (t : Tree) (a : NodeId) : Prop :=
  t.tag? a = some "appendix" ∧ ∃ part, t.parentOf a = some part ∧ t.tag? part = some "part"

section Relieved

variable {t u u' : Tree} {as : List NodeId} {a p q i : NodeId}

theorem Relieved.refl (h : Proper t) : Relieved t [] t where
  proper := h
  root := rfl
  size := rfl
  contentOf _ := rfl
  parentOf i := by simp
  childrenOf i := by simp [heldBy]

/-! ### One more appendix -/

theorem beside_last {held before after : List NodeId}
    (hd : (before ++ (p :: held ++ after)).Nodup) :
    beside 1 (held.getLast?.getD p) a (before ++ (p :: held ++ after)) =
      before ++ (p :: (held ++ [a]) ++ after) := by
  obtain ⟨passed, hpassed⟩ : ∃ passed, p :: held = passed ++ [held.getLast?.getD p] :=
    List.getLast?_eq_some_iff.1 List.getLast?_cons
  rw [hpassed, List.append_assoc, ← List.append_assoc, List.singleton_append] at hd ⊢
  rw [beside_one (not_mem_of_nodup hd).1, ← List.cons_append, hpassed]
  simp

theorem mem_heldBy (ht : Proper t) : a ∈ heldBy t as p ↔ t.parentOf a = some p ∧ a ∈ as := by
  rw [heldBy, List.mem_filter, decide_eq_true_iff, ht.forest.mem_childrenOf]

theorem heldBy_eq_nil (ht : Proper t) (has : ∀ b ∈ as, InPart t b)
    (hi : t.tag? i ≠ some "part") : heldBy t as i = [] := by
  refine List.eq_nil_iff_forall_not_mem.2 fun b hb => ?_
  obtain ⟨hbi, hbas⟩ := (mem_heldBy ht).1 hb
  obtain ⟨-, part, hpart, htag⟩ := has b hbas
  rw [hpart, Option.some.injEq] at hbi
  exact hi (hbi ▸ htag)

theorem notMem_of_part (has : ∀ b ∈ as, InPart t b) (hi : t.tag? i = some "part") : i ∉ as := by
  intro hm
  have htag := (has i hm).1
  simp [hi] at htag

theorem Relieved.parentOf_anchor (h : Relieved t as u) (ht : Proper t)
    (has : ∀ b ∈ as, InPart t b) (hp : t.parentOf p = some q) (hpart : t.tag? p = some "part") :
    u.parentOf ((heldBy t as p).getLast?.getD p) = some q := by
  rw [h.parentOf]
  cases hlast : (heldBy t as p).getLast? with
  | none => rw [Option.getD_none, if_neg (notMem_of_part has hpart), hp]
  | some b =>
      obtain ⟨hb, hbas⟩ := (mem_heldBy ht).1 (List.mem_of_getLast? hlast)
      rw [Option.getD_some, if_pos hbas, hb, Option.bind_some, hp]

section Step

variable (h : Relieved t as u) (ht : Proper t) (has : ∀ b ∈ as, InPart t b)
  (ha : t.tag? a = some "appendix") (haa : a ∉ as)

include ht haa

theorem heldBy_append (hp : t.parentOf a = some p)
    (hlater : ∀ before after, t.childrenOf p = before ++ a :: after → ∀ b ∈ after, b ∉ as)
    (i : NodeId) :
    heldBy t (as ++ [a]) i = if i = p then heldBy t as p ++ [a] else heldBy t as i := by
  split
  · next hi =>
    subst hi
    obtain ⟨before, after, hkids⟩ := List.append_of_mem (ht.forest.mem_childrenOf.2 hp)
    have hd := ht.forest.nodup_childrenOf i
    rw [hkids] at hd
    rw [heldBy, heldBy, hkids, filter_mem_append hd haa (hlater before after hkids)]
  · next hi =>
    refine List.filter_congr fun b hb => ?_
    have hba : b ≠ a := by
      rintro rfl
      rw [ht.forest.mem_childrenOf, hp, Option.some.injEq] at hb
      exact hi hb.symm
    simp [hba]

include h has ha

/-- The appendix is taken from among the children of its part, and each child that is left is
followed by those that followed it before. -/
theorem Relieved.filter_childrenOf (i : NodeId) : (u.childrenOf i).filter (· ≠ a) =
    ((t.childrenOf i).filter (· ∉ as ++ [a])).flatMap fun c => c :: heldBy t as c := by
  have hfilter (l : List NodeId) :
      l.filter (· ∉ as ++ [a]) = (l.filter (· ∉ as)).filter (· ≠ a) := by
    rw [List.filter_filter]
    refine List.filter_congr fun c _ => ?_
    simp [not_or, Bool.and_comm]
  have hheld (c : NodeId) : (heldBy t as c).filter (· ≠ a) = heldBy t as c :=
    List.filter_eq_self.2 fun b hb => by
      simpa using ne_of_mem_of_not_mem ((mem_heldBy ht).1 hb).2 haa
  rw [h.childrenOf, hfilter]
  induction (t.childrenOf i).filter (· ∉ as) with
  | nil => rfl
  | cons c rest ih =>
      rw [List.flatMap_cons, List.filter_append, ih]
      by_cases hc : c = a
      · rw [List.filter_cons_of_neg (by simpa using hc), List.filter_cons_of_neg (by simpa using hc),
          hheld, heldBy_eq_nil ht has (by simp [hc, ha]), List.nil_append]
      · rw [List.filter_cons_of_pos (by simpa using hc), List.filter_cons_of_pos (by simpa using hc),
          hheld, List.flatMap_cons]

/-- Next to the anchor is the place of one more appendix of its part. -/
theorem Relieved.beside_anchor (hp : t.parentOf a = some p)
    (hpart : t.tag? p = some "part") (hq : t.parentOf p = some q)
    (hlater : ∀ before after, t.childrenOf p = before ++ a :: after → ∀ b ∈ after, b ∉ as)
    (i : NodeId) :
    (if i = q then beside 1 ((heldBy t as p).getLast?.getD p) a ((u.childrenOf i).filter (· ≠ a))
      else (u.childrenOf i).filter (· ≠ a)) =
    ((t.childrenOf i).filter (· ∉ as ++ [a])).flatMap fun c => c :: heldBy t (as ++ [a]) c := by
  have hsame (l : List NodeId) (hl : p ∉ l) : (l.flatMap fun c => c :: heldBy t (as ++ [a]) c) =
      l.flatMap fun c => c :: heldBy t as c :=
    List.flatMap_congr fun c hc => by
      rw [heldBy_append ht haa hp hlater, if_neg (ne_of_mem_of_not_mem hc hl)]
  have hd := (h.proper.forest.nodup_childrenOf i).filter (· ≠ a)
  rw [h.filter_childrenOf ht has ha haa] at hd ⊢
  split
  · next hi =>
    subst hi
    have hpa : p ≠ a := ht.forest.parent_ne hp
    have hpm : p ∈ (t.childrenOf i).filter (· ∉ as ++ [a]) := by
      rw [List.mem_filter, ht.forest.mem_childrenOf]
      exact ⟨hq, by simp [notMem_of_part has hpart, hpa]⟩
    obtain ⟨before, after, hkids⟩ := List.append_of_mem hpm
    have hrest : p ∉ before ∧ p ∉ after :=
      not_mem_of_nodup (hkids ▸ (ht.forest.nodup_childrenOf i).filter _)
    rw [hkids, List.flatMap_append, List.flatMap_cons] at hd ⊢
    rw [List.flatMap_append, List.flatMap_cons, hsame before hrest.1, hsame after hrest.2,
      heldBy_append ht haa hp hlater, if_pos rfl, beside_last hd]
  · next hi =>
    refine (hsame _ fun hm => hi ?_).symm
    rw [List.mem_filter, ht.forest.mem_childrenOf, hq, Option.some.injEq] at hm
    exact hm.1.symm

theorem Relieved.step (hp : t.parentOf a = some p) (hpart : t.tag? p = some "part")
    (hq : t.parentOf p = some q)
    (hlater : ∀ before after, t.childrenOf p = before ++ a :: after → ∀ b ∈ after, b ∉ as) :
    ∃ u', (Edit.insertAfter ((heldBy t as p).getLast?.getD p) a).run u = .ok () u' ∧
      Relieved t (as ++ [a]) u' := by
  have hap : u.parentOf a = some p := by rw [h.parentOf, if_neg haa, hp]
  have hpq : u.parentOf p = some q := by rw [h.parentOf, if_neg (notMem_of_part has hpart), hq]
  have hanchor : (heldBy t as p).getLast?.getD p ≠ a := by
    cases hlast : (heldBy t as p).getLast? with
    | none => exact ht.forest.parent_ne hp
    | some b =>
        exact ne_of_mem_of_not_mem ((mem_heldBy ht).1 (List.mem_of_getLast? hlast)).2 haa
  obtain ⟨u', hrun, hr, hsize, hcont, hpar, hchild⟩ := run_insertBeside_parent h.proper 1
    (h.parentOf_anchor ht has hq hpart) hanchor hap hpq
    ((tag?_eq_of_contentOf (h.contentOf p)).trans hpart) (by decide)
  refine ⟨u', hrun, hr.proper, hr.root.trans h.root, hsize.trans h.size,
    fun i => (hcont i).trans (h.contentOf i), fun i => ?_, fun i => ?_⟩
  · rw [hpar, h.parentOf]
    by_cases hi : i = a
    · rw [if_pos hi, if_pos (by simp [hi]), hi, hp, Option.bind_some, hq]
    · simp only [hi, if_false, List.mem_append, List.mem_singleton, or_false]
  · rw [hchild, h.beside_anchor ht has ha haa hp hpart hq hlater]

end Step

/-! ### The loop -/

theorem mem_select_appendices (ht : Proper t) :
    a ∈ (Selector.mk [["part"], ["appendix"]]).select t ↔ t.Live a ∧ InPart t a := by
  rw [ht.forest.mem_select, Selector.accepts_two_iff, InPart]
  constructor
  · rintro ⟨hl, tag, htag, hm, part, hp, outer, ho, hm'⟩
    exact ⟨hl, List.mem_singleton.1 hm ▸ htag, part, hp, List.mem_singleton.1 hm' ▸ ho⟩
  · rintro ⟨hl, htag, part, hp, ho⟩
    exact ⟨hl, _, htag, List.mem_singleton_self _, part, hp, _, ho, List.mem_singleton_self _⟩

theorem hoistable_eq (t : Tree) :
    hoistable t = ((Selector.mk [["part"], ["appendix"]]).select t).filter (isHoistable t) := by
  rw [select_eq_filter, hoistable, List.filter_filter]
  refine List.filter_congr fun a _ => ?_
  rw [Bool.eq_iff_iff, Bool.and_eq_true, iff_self_and]
  intro ha
  simp only [isHoistable, Bool.and_eq_true, beq_iff_eq, Option.any_eq_true] at ha
  obtain ⟨htag, p, hp, hpart, -⟩ := ha
  exact Selector.accepts_two_iff.2 ⟨_, htag, List.mem_singleton_self _, p, hp, _, hpart,
    List.mem_singleton_self _⟩

theorem isHoistable_iff (ht : Proper t) (hl : t.Live a) (ha : t.tag? a = some "appendix")
    (hp : t.parentOf a = some p) (hpart : t.tag? p = some "part") :
    isHoistable t a = (t.parentOf p).isSome := by
  have hroot : t.root ≠ some p ↔ (t.parentOf p).isSome := by
    constructor
    · intro hr
      obtain ⟨q, hq, -⟩ := (hl.parent ht hp).exists_parent hr
      simp [hq]
    · intro hs hr
      simp [ht.top hr] at hs
  rw [Bool.eq_iff_iff, ← hroot]
  simp [isHoistable, ha, hp, hpart]

/-- The appendices that come after one of the loop in their part have not had their turn before it. -/
theorem notMem_done_of_later (ht : Proper t) {done rest : List NodeId}
    (hids : done ++ a :: rest = (Selector.mk [["part"], ["appendix"]]).select t) (hl : t.Live p)
    {before after : List NodeId} (hkids : t.childrenOf p = before ++ a :: after) :
    ∀ b ∈ after, b ∉ done.filter (isHoistable t) := by
  intro b hb hm
  have hab : t.Precedes a b := ht.forest.precedes_of_siblings hl
    (hkids ▸ pair_sublist_of_mem_right hb before) (.refl a) (.refl b)
  exact hab.notMem_done ht.forest hids (List.mem_filter.1 hm).1

/-- Whatever has been hoisted, the loop goes on if the anchor of each part is the last appendix that
was. -/
theorem exists_relieved_of_anchors (ht : Proper t) (done : List NodeId) {rest : List NodeId}
    (hids : done ++ rest = (Selector.mk [["part"], ["appendix"]]).select t)
    (anchors : List (NodeId × NodeId)) (hu : Relieved t (done.filter (isHoistable t)) u)
    (hanchors : ∀ p, anchors.lookup p = (heldBy t (done.filter (isHoistable t)) p).getLast?) :
    ∃ t', (hoistFrom anchors rest).run u = .ok (rest.filter (isHoistable t)).length t' ∧
      Relieved t (hoistable t) t' := by
  induction rest generalizing done anchors u with
  | nil => exact ⟨u, rfl, by rwa [hoistable_eq, ← hids, List.append_nil]⟩
  | cons a rest ih =>
      have hids' : done ++ [a] ++ rest = (Selector.mk [["part"], ["appendix"]]).select t := by
        rw [List.append_assoc, List.singleton_append, hids]
      have hsel {b : NodeId} (hb : b ∈ done ++ a :: rest) : t.Live b ∧ InPart t b :=
        (mem_select_appendices ht).1 (hids ▸ hb)
      have has : ∀ b ∈ done.filter (isHoistable t), InPart t b := fun b hb =>
        (hsel (List.mem_append_left _ (List.mem_filter.1 hb).1)).2
      obtain ⟨hl, htag, p, hp, hpart⟩ := hsel (List.mem_append_right done List.mem_cons_self)
      have haa : a ∉ done.filter (isHoistable t) := fun hm =>
        (not_mem_of_nodup (hids ▸ ht.forest.nodup_select _)).1 (List.mem_filter.1 hm).1
      have hap : u.parentOf a = some p := by rw [hu.parentOf, if_neg haa, hp]
      have hpq : u.parentOf p = t.parentOf p := by
        rw [hu.parentOf, if_neg (notMem_of_part has hpart)]
      have hplt : p < u.nodes.size := hu.size ▸ lt_size_of_tag? hpart
      rw [hoistFrom, run_ask_parent?, if_pos (lt_size_of_parentOf hap), hap]
      simp only
      rw [run_ask_parent?, if_pos hplt, hpq]
      cases hq : t.parentOf p with
      | none =>
          have hkeep : isHoistable t a = false := by
            rw [isHoistable_iff ht hl htag hp hpart, hq, Option.isSome_none]
          have hpast : (done ++ [a]).filter (isHoistable t) = done.filter (isHoistable t) := by
            rw [List.filter_append, List.filter_singleton, hkeep]
            simp
          rw [List.filter_cons_of_neg (by simp [hkeep])]
          exact ih _ hids' anchors (hpast ▸ hu) (by rwa [hpast])
      | some q =>
          have hmove : isHoistable t a = true := by
            rw [isHoistable_iff ht hl htag hp hpart, hq, Option.isSome_some]
          have hpast : (done ++ [a]).filter (isHoistable t) =
              done.filter (isHoistable t) ++ [a] := by
            rw [List.filter_append, List.filter_singleton, hmove]
            rfl
          have hlater (before after : List NodeId) (hkids : t.childrenOf p = before ++ a :: after) :=
            notMem_done_of_later ht hids (hl.parent ht hp) hkids
          obtain ⟨u', hrun, hu'⟩ := hu.step ht has htag haa hp hpart hq hlater
          obtain ⟨t', hrest, ht'⟩ := ih _ hids' ((p, a) :: anchors) (hpast ▸ hu') fun r => by
            rw [hpast, heldBy_append ht haa hp hlater, List.lookup_cons]
            by_cases hr : r = p
            · simp [hr]
            · have hb : (r == p) = false := by simpa using hr
              simp [hb, hr, hanchors]
          refine ⟨t', ?_, ht'⟩
          rw [hanchors]
          simp only [EStateM.run_bind, hrun, hrest, EStateM.run_pure]
          rw [List.filter_cons_of_pos hmove, List.length_cons]

theorem exists_relieved (h : Proper t) :
    ∃ t', hoistAppendices.apply.run t = .ok (hoistable t).length t' ∧
      Relieved t (hoistable t) t' := by
  have hn : Selector.names "part/appendix" = [["part"], ["appendix"]] := by cbv
  simp only [hoistAppendices, EStateM.run_bind, run_select (Selector.parse_of_names hn rfl)]
  obtain ⟨t', hrun, ht'⟩ := exists_relieved_of_anchors h [] rfl [] (.refl h) (by simp [heldBy])
  refine ⟨t', ?_, ht'⟩
  rw [hoistable_eq]
  exact hrun

/-! ### What is kept -/

theorem mem_hoistable (ht : Proper t) : a ∈ hoistable t ↔ t.Live a ∧ isHoistable t a = true := by
  rw [hoistable, List.mem_filter, ht.forest.mem_map_live]

theorem exists_of_mem_hoistable (ht : Proper t) (ha : a ∈ hoistable t) :
    t.tag? a = some "appendix" ∧
      ∃ p, t.parentOf a = some p ∧ t.tag? p = some "part" ∧ ∃ q, t.parentOf p = some q := by
  obtain ⟨hl, hh⟩ := (mem_hoistable ht).1 ha
  simp only [isHoistable, Bool.and_eq_true, beq_iff_eq, Option.any_eq_true, bne_iff_ne] at hh
  obtain ⟨htag, p, hp, hpart, hroot⟩ := hh
  obtain ⟨q, hq, -⟩ := (hl.parent ht hp).exists_parent hroot
  exact ⟨htag, p, hp, hpart, q, hq⟩

/-- An appendix skips a part that is not the root, and a part is no landmark. -/
theorem Relieved.rearranged (h : Relieved t (hoistable t) u) (ht : Proper t) : Rearranged t u := by
  refine .of_shortcuts h.proper h.root (.of_contentOf fun i n hn => (h.contentOf i).trans hn)
    (.of_size_le (Nat.le_of_eq h.size)) (fun i _ j hj => h.size ▸ h.proper.forest.parent_lt hj)
    fun S hS i _ => ?_
  rw [h.parentOf]
  by_cases hi : i ∈ hoistable t
  · obtain ⟨-, p, hp, hpart, q, hq⟩ := exists_of_mem_hoistable ht hi
    refine .inr ⟨p, hp, hS.not_of_tag? ht hq hpart (by decide), ?_⟩
    rw [if_pos hi, hp, Option.bind_some]
  · exact .inl (if_neg hi)

/-- Unless a part is directly in another one, no appendix is left to be hoisted. -/
theorem Relieved.hoistable_eq_nil (h : Relieved t (hoistable t) u) (ht : Proper t)
    (hparts : ∀ p ∈ partsOf t, (t.parentOf p).bind t.tag? ≠ some "part") : hoistable u = [] := by
  refine List.eq_nil_iff_forall_not_mem.2 fun a ha => ?_
  have htag (i : NodeId) : u.tag? i = t.tag? i := tag?_eq_of_contentOf (h.contentOf i)
  obtain ⟨hl, hh⟩ := (mem_hoistable h.proper).1 ha
  rw [(h.rearranged ht).live_iff_of_size ht h.size] at hl
  simp only [isHoistable, Bool.and_eq_true, beq_iff_eq, Option.any_eq_true, htag, h.root] at hh
  obtain ⟨htaga, p, hp, hpart, hroot⟩ := hh
  rw [h.parentOf] at hp
  split at hp
  · next hm =>
    obtain ⟨-, w, hw, hwpart, -⟩ := exists_of_mem_hoistable ht hm
    rw [hw, Option.bind_some] at hp
    refine hparts w ?_ (by rw [hp, Option.bind_some, hpart])
    rw [partsOf, List.mem_filter, ht.forest.mem_map_live, beq_iff_eq]
    exact ⟨hl.parent ht hw, hwpart⟩
  · next hm =>
    refine hm ((mem_hoistable ht).2 ⟨hl, ?_⟩)
    simp only [isHoistable, htaga, hp, Option.any_some, hpart, beq_self_eq_true, Bool.true_and]
    exact hroot

theorem run_hoistAppendices (h : Proper t) :
    ∃ n t', hoistAppendices.apply.run t = .ok n t' ∧ Rearranged t t' ∧
      t'.nodes.size = t.nodes.size ∧ MovesOnly (fun i => t.tag? i = some "appendix") t t' := by
  obtain ⟨t', hrun, ht'⟩ := exists_relieved h
  have hr := ht'.rearranged h
  refine ⟨_, t', hrun, hr, ht'.size, hr.movesOnly h (fun i _ => ht'.contentOf i) fun i _ hm => ?_⟩
  rw [ht'.parentOf, if_neg fun hi => hm (exists_of_mem_hoistable h hi).1]

end Relieved

/-- The rule for appendices on a document: each part that is not the root is followed by the
appendices that were in it, and all else is as it was. Where no part is directly in another one, no
such part has an appendix any more. -/
theorem hoistAppendices_of_parse {o : Reader.Options} {text : String} {d : Document}
    (h : Document.parse o text = .ok d) :
    ∃ t', hoistAppendices.apply.run d.tree = .ok (hoistable d.tree).length t' ∧
      Relieved d.tree (hoistable d.tree) t' ∧
      ((∀ p ∈ partsOf d.tree, (d.tree.parentOf p).bind d.tree.tag? ≠ some "part") →
        hoistable t' = []) := by
  have hp := Document.proper_of_parse h
  obtain ⟨t', hrun, ht'⟩ := exists_relieved hp
  exact ⟨t', hrun, ht', ht'.hoistable_eq_nil hp⟩

/-- Two parts in one list of children, the first with a part in one of its appendices. -/
theorem hoistAppendices_of_nested_parts : ∃ d t', Document.parse {}
      "<b><part><appendix><part><appendix/></part></appendix><appendix/></part><part/></b>" =
        .ok d ∧
    hoistAppendices.apply.run d.tree = .ok 3 t' ∧ Relieved d.tree (hoistable d.tree) t' ∧
    hoistable t' = [] := by
  obtain ⟨d, hparse, hcount, hparts⟩ : ∃ d, Document.parse {}
      "<b><part><appendix><part><appendix/></part></appendix><appendix/></part><part/></b>" =
        .ok d ∧ (hoistable d.tree).length = 3 ∧
      ∀ p ∈ partsOf d.tree, (d.tree.parentOf p).bind d.tree.tag? ≠ some "part" :=
    exists_ok_of_any (by decide +kernel)
  obtain ⟨t', hrun, ht', hnone⟩ := hoistAppendices_of_parse hparse
  exact ⟨d, t', hparse, hcount ▸ hrun, ht', hnone hparts⟩

end BookMarkup.Rule
