import BookMarkup.Proofs.Rule.Move
import BookMarkup.Rule.Part

/-!
The rule for introductions on proper trees. Paragraphs and lists go from a part below its
introduction. The rule always succeeds and leaves a rearranged tree, in which only what is directly
below parts and introductions has changed.
-/

namespace BookMarkup.Rule

open BookMarkup.Tree

/-! ### Introductions -/

/-- The labels are the same, and so are the nodes directly below elements with tags other than
these. -/
structure SameBelow (tags : List String) (t t' : Tree) : Prop where
  kept : Kept [] touchedNames t t'
  below : ∀ p < t.nodes.size, (∀ tag ∈ tags, t.tag? p ≠ some tag) →
    ∀ i, t'.parentOf i = some p ↔ t.parentOf i = some p

theorem SameBelow.refl (tags : List String) (t : Tree) : SameBelow tags t t :=
  ⟨.refl _ _ t, fun _ _ _ _ => Iff.rfl⟩

theorem SameBelow.trans {tags : List String} {t t' t'' : Tree} (h : SameBelow tags t t')
    (h' : SameBelow tags t' t'') : SameBelow tags t t'' where
  kept := h.kept.trans h'.kept
  below p hp hn i := by
    refine (h'.below p (h.kept.lt hp) (fun tag ht => ?_) i).trans (h.below p hp hn i)
    rw [h.kept.tag?_eq hp]
    exact hn tag ht

/-- The tags below which the introductions change something. -/
def introTags : List String :=
  ["part", "partintro"]

theorem SameBelow.of_parentOf {t t' : Tree} {c w : NodeId} (hk : Kept [] touchedNames t t')
    (hc : ∀ p, t.parentOf c = some p → t.tag? p = some "part")
    (hw : t.tag? w = some "part" ∨ t.tag? w = some "partintro")
    (hpar : ∀ i, t'.parentOf i = if i = c then some w else t.parentOf i) :
    SameBelow introTags t t' := by
  refine ⟨hk, fun p _ hn i => ?_⟩
  rw [hpar i]
  split
  · next hi =>
    subst hi
    constructor
    · intro hp
      rw [Option.some.injEq] at hp
      subst hp
      rcases hw with hw | hw
      · exact absurd hw (hn _ (by simp [introTags]))
      · exact absurd hw (hn _ (by simp [introTags]))
    · intro hp
      exact absurd (hc p hp) (hn _ (by simp [introTags]))
  · rfl

def intro? (t : Tree) (part : NodeId) : Option NodeId :=
  (t.childrenOf part).find? fun c => t.tag? c == some "partintro"

def introsMade (t : Tree) (part : NodeId) : Nat :=
  if (intro? t part).isSome then 0 else 1

/-- The children of a part with `new` in the second place, unless there is an introduction. -/
def withIntro (t : Tree) (part new : NodeId) : List NodeId :=
  if (intro? t part).isSome then t.childrenOf part
  else (t.childrenOf part).take 1 ++ new :: (t.childrenOf part).drop 1

def introContent (t : Tree) (part : NodeId) : List NodeId :=
  (t.childrenOf part).filter fun c => isIntroContent (t.tag? c)

theorem tag?_of_intro? {t : Tree} {part intro : NodeId} (hi : intro? t part = some intro) :
    t.tag? intro = some "partintro" := by
  simpa using List.find?_some hi

theorem parentOf_of_intro? {t : Tree} (h : Proper t) {part intro : NodeId}
    (hi : intro? t part = some intro) : t.parentOf intro = some part :=
  h.forest.mem_childrenOf.1 (List.mem_of_find?_eq_some hi)

structure IntroPlaced (t : Tree) (part : NodeId) (t' : Tree) : Prop where
  rearranged : Rearranged t t'
  sameBelow : SameBelow introTags t t'
  size : t'.nodes.size = t.nodes.size + introsMade t part
  contentOf : ∀ i, t'.contentOf i =
    if i = t.nodes.size ∧ intro? t part = none then
      some { Node.element "partintro" with id := t.nodes.size }
    else t.contentOf i
  parentOf : ∀ i, t'.parentOf i =
    if i = (intro? t part).getD t.nodes.size then some part else t.parentOf i
  childrenOf : ∀ i, t'.childrenOf i =
    if i = part then withIntro t part t.nodes.size else t.childrenOf i

section IntroPlaced

variable {t t' : Tree} {part : NodeId}

theorem IntroPlaced.contentOf_of_lt (h : IntroPlaced t part t') {i : NodeId}
    (hi : i < t.nodes.size) : t'.contentOf i = t.contentOf i := by
  rw [h.contentOf, if_neg fun hc => Nat.ne_of_lt hi hc.1]

theorem IntroPlaced.tag?_intro (h : IntroPlaced t part t') :
    t'.tag? ((intro? t part).getD t.nodes.size) = some "partintro" := by
  cases hi : intro? t part with
  | none =>
      rw [Option.getD_none, tag?_eq, h.contentOf, if_pos ⟨rfl, hi⟩]
      rfl
  | some intro =>
      have ht := tag?_of_intro? hi
      rw [Option.getD_some, tag?_eq_of_contentOf (h.contentOf_of_lt (lt_size_of_tag? ht)), ht]

theorem IntroPlaced.parentOf_of_lt (h : IntroPlaced t part t') (ht : Proper t) {i : NodeId}
    (hi : i < t.nodes.size) : t'.parentOf i = t.parentOf i := by
  rw [h.parentOf]
  split
  · next hii =>
    cases hc : intro? t part with
    | none => exact absurd (by simpa [hc] using hii) (Nat.ne_of_lt hi)
    | some intro =>
        rw [hc, Option.getD_some] at hii
        rw [hii, parentOf_of_intro? ht hc]
  · rfl

theorem IntroPlaced.new (h : IntroPlaced t part t') {i : NodeId} (hi : t.nodes.size ≤ i)
    (hlt : i < t'.nodes.size) : t'.tag? i = some "partintro" := by
  rw [h.size, introsMade] at hlt
  cases hc : intro? t part with
  | none =>
      rw [hc] at hlt
      obtain rfl : i = t.nodes.size := Nat.le_antisymm (Nat.lt_succ_iff.1 hlt) hi
      have hnew := h.tag?_intro
      rwa [hc] at hnew
  | some intro =>
      rw [hc] at hlt
      exact absurd hlt (Nat.not_lt.2 hi)

end IntroPlaced

/-- The introduction is a child of the part, and all that was there is still in its place. -/
theorem run_introOf {t : Tree} (h : Proper t) {part : NodeId} (ht : t.tag? part = some "part") :
    ∃ t', (introOf part (t.childrenOf part)).run t =
      .ok ((intro? t part).getD t.nodes.size, introsMade t part) t' ∧ IntroPlaced t part t' := by
  simp only [introOf, EStateM.run_bind, EStateM.run_get]
  cases hfind : intro? t part with
  | some intro =>
      refine ⟨t, ?_, .refl h, .refl _ t, by simp [introsMade, hfind],
        fun i => by simp [hfind], fun i => ?_, fun i => ?_⟩
      · rw [intro?] at hfind
        rw [hfind, introsMade, intro?, hfind]
        rfl
      · rw [hfind, Option.getD_some]
        split
        · next hi => rw [hi, parentOf_of_intro? h hfind]
        · rfl
      · rw [withIntro, hfind]
        split
        · next hi => rw [hi]; rfl
        · rfl
  | none =>
      have hp := lt_size_of_tag? ht
      have hpar := parentOf_planted h hp 1 (Node.element "partintro")
      refine ⟨planted t part 1 (Node.element "partintro"), ?_, .planted h 1 ht (by decide), ?_,
        by simp [introsMade, hfind], fun i => ?_, fun i => ?_, fun i => ?_⟩
      · rw [introsMade, hfind]
        rw [intro?] at hfind
        simp only [hfind, EStateM.run_bind, run_create, run_insertChild_new h 1 _ ht,
          EStateM.run_pure]
        rfl
      · refine .of_parentOf (c := t.nodes.size) (.planted h hp 1 _) (fun p hp => ?_) (.inl ht) hpar
        rw [parentOf_eq_none_of_size_le (Nat.le_refl _)] at hp
        simp at hp
      · rw [contentOf_planted h hp]
        simp only [hfind, and_true]
        rfl
      · rw [hpar, hfind, Option.getD_none]
      · rw [childrenOf_planted h hp, withIntro, hfind]
        split
        · next hi => rw [hi]; rfl
        · rfl

theorem run_moveToIntro {t : Tree} (h : Proper t) {part intro c : NodeId}
    (ht : t.tag? part = some "part") (hi : t.tag? intro = some "partintro")
    (hip : t.parentOf intro = some part) (hc : t.parentOf c = some part) :
    ∃ t', (moveToIntro intro c).run t = .ok (if isIntroContent (t.tag? c) then 1 else 0) t' ∧
      Rearranged t t' ∧ SameBelow introTags t t' ∧ t'.nodes.size = t.nodes.size ∧
      (∀ i, t'.contentOf i = t.contentOf i) ∧
      (∀ i, t'.parentOf i =
        if i = c ∧ isIntroContent (t.tag? i) = true then some intro else t.parentOf i) ∧
      ∀ i, t'.childrenOf i =
        (t.childrenOf i).filter (fun s => ¬ (s = c ∧ isIntroContent (t.tag? s) = true)) ++
          if i = intro ∧ isIntroContent (t.tag? c) = true then [c] else [] := by
  simp only [moveToIntro, EStateM.run_bind, EStateM.run_get]
  by_cases hintro : isIntroContent (t.tag? c) = true
  · have hne : intro ≠ c := by
      rintro rfl
      rw [hi] at hintro
      simp [isIntroContent] at hintro
    obtain ⟨t', hrun, hr, hsize, hcont, hpar, hchild⟩ :=
      run_appendChild_sibling h hip hc hne hi (by decide)
    refine ⟨t', ?_, hr, ?_, hsize, hcont, fun i => ?_, fun i => ?_⟩
    · simp only [if_pos hintro, EStateM.run_bind, hrun, EStateM.run_pure]
    · refine .of_parentOf (.of_contentOf fun i n hn => (hcont i).trans hn) (fun p hp => ?_)
        (.inr hi) hpar
      rw [hc, Option.some.injEq] at hp
      exact hp ▸ ht
    · rw [hpar]
      by_cases hic : i = c
      · rw [if_pos hic, if_pos ⟨hic, hic ▸ hintro⟩]
      · rw [if_neg hic, if_neg fun h => hic h.1]
    · have hmoved (s : NodeId) : (s = c ∧ isIntroContent (t.tag? s) = true) ↔ s = c :=
        ⟨fun hs => hs.1, fun hs => ⟨hs, hs ▸ hintro⟩⟩
      simp only [hchild, hmoved, hintro, and_true]
  · have hstays (s : NodeId) : ¬ (s = c ∧ isIntroContent (t.tag? s) = true) := by
      rintro ⟨rfl, hcontent⟩
      exact hintro hcontent
    refine ⟨t, by rw [if_neg hintro, if_neg hintro]; rfl, .refl h, .refl _ t, rfl, fun _ => rfl,
      fun i => by rw [if_neg (hstays i)], fun i => ?_⟩
    simp [hstays, hintro]

def HasIntro (t : Tree) (part : NodeId) : Prop :=
  ∃ c, t.parentOf c = some part ∧ t.tag? c = some "partintro"

/-- The tree `t'` is `t` with the introduction of `part` in place: all content of introductions that
was directly below the part is in it, and everything else is where it was. -/
structure Introduced (t : Tree) (part : NodeId) (t' : Tree) : Prop where
  rearranged : Rearranged t t'
  sameBelow : SameBelow introTags t t'
  contentOf : ∀ i < t.nodes.size, t'.contentOf i = t.contentOf i
  parentOf : ∀ i < t.nodes.size, ¬ (t.parentOf i = some part ∧ isIntroContent (t.tag? i) = true) →
    t'.parentOf i = t.parentOf i
  gathered : ∀ i < t.nodes.size, t.parentOf i = some part ∧ isIntroContent (t.tag? i) = true →
    ∃ intro, t'.parentOf i = some intro ∧ t'.tag? intro = some "partintro"
  new : ∀ i, t.nodes.size ≤ i → i < t'.nodes.size → t'.tag? i = some "partintro"
  intro : HasIntro t' part

/-- The loop over children of the part takes those that belong in the introduction, in their order. -/
theorem run_tally_moveToIntro {t : Tree} (h : Proper t) {part intro : NodeId}
    (ht : t.tag? part = some "part") (hi : t.tag? intro = some "partintro")
    (hip : t.parentOf intro = some part) {children : List NodeId} (hd : children.Nodup)
    (hchildren : ∀ c ∈ children, t.parentOf c = some part) :
    ∃ t', (Edit.tally (moveToIntro intro) children).run t =
        .ok (children.filter fun c => isIntroContent (t.tag? c)).length t' ∧
      Rearranged t t' ∧ SameBelow introTags t t' ∧ t'.nodes.size = t.nodes.size ∧
      (∀ i, t'.contentOf i = t.contentOf i) ∧
      (∀ i, t'.parentOf i =
        if i ∈ children ∧ isIntroContent (t.tag? i) = true then some intro else t.parentOf i) ∧
      ∀ i, t'.childrenOf i =
        (t.childrenOf i).filter (fun c => ¬ (c ∈ children ∧ isIntroContent (t.tag? c) = true)) ++
          if i = intro then children.filter fun c => isIntroContent (t.tag? c) else [] := by
  have hintro : isIntroContent (t.tag? intro) = false := by
    rw [hi]
    rfl
  rw [← sum_map_counted]
  refine run_tally_prefix hd (moveToIntro intro) _
    (fun done u => Rearranged t u ∧ SameBelow introTags t u ∧ u.nodes.size = t.nodes.size ∧
      (∀ i, u.contentOf i = t.contentOf i) ∧
      (∀ i, u.parentOf i =
        if i ∈ done ∧ isIntroContent (t.tag? i) = true then some intro else t.parentOf i) ∧
      ∀ i, u.childrenOf i =
        (t.childrenOf i).filter (fun c => ¬ (c ∈ done ∧ isIntroContent (t.tag? c) = true)) ++
          if i = intro then done.filter fun c => isIntroContent (t.tag? c) else [])
    (fun done c rest u hids hcd hinv => ?_)
    ⟨.refl h, .refl _ t, rfl, fun _ => rfl, fun i => by simp, fun i => by simp⟩
  obtain ⟨hr, hs, hsize, hcont, hpar, hchild⟩ := hinv
  have htag (i : NodeId) : u.tag? i = t.tag? i := tag?_eq_of_contentOf (hcont i)
  have hcp : u.parentOf c = some part := by
    rw [hpar, if_neg fun hm => hcd hm.1, hchildren c (hids ▸ by simp)]
  obtain ⟨u', hrun, hr', hs', hsize', hcont', hpar', hchild'⟩ :=
    run_moveToIntro hr.proper (by rw [htag, ht]) (by rw [htag, hi])
      (by rw [hpar, if_neg fun hm => by simp [hintro] at hm, hip]) hcp
  refine ⟨u', by rw [hrun, htag], hr.trans hr', hs.trans hs', hsize'.trans hsize,
    fun i => (hcont' i).trans (hcont i), fun i => ?_, fun i => ?_⟩
  · rw [hpar', hpar, htag]
    by_cases hic : i = c
    · subst hic
      simp [hcd]
    · simp [hic]
  · have hkept : (done.filter fun s => isIntroContent (t.tag? s)).filter
        (fun s => ¬ (s = c ∧ isIntroContent (t.tag? s) = true)) =
          done.filter fun s => isIntroContent (t.tag? s) := by
      refine List.filter_eq_self.2 fun s hs => decide_eq_true fun hsc => hcd ?_
      exact hsc.1 ▸ (List.mem_filter.1 hs).1
    have hleft : ((t.childrenOf i).filter
        (fun s => ¬ (s ∈ done ∧ isIntroContent (t.tag? s) = true))).filter
          (fun s => ¬ (s = c ∧ isIntroContent (t.tag? s) = true)) =
        (t.childrenOf i).filter
          fun s => ¬ (s ∈ done ++ [c] ∧ isIntroContent (t.tag? s) = true) := by
      rw [List.filter_filter]
      refine List.filter_congr fun s _ => ?_
      rw [← Bool.decide_and]
      refine decide_eq_decide.2 ?_
      rw [List.mem_append, List.mem_singleton]
      tauto
    simp only [hchild', htag, hchild, List.filter_append, hleft, List.append_assoc]
    by_cases hii : i = intro
    · simp only [hii, if_true, true_and, hkept, List.filter_cons, List.filter_nil]
    · simp [hii]

theorem mem_withIntro {t : Tree} {part new c : NodeId} (hc : c ∈ withIntro t part new) :
    c ∈ t.childrenOf part ∨ c = new := by
  rw [withIntro] at hc
  split at hc
  · exact .inl hc
  · rw [List.mem_append, List.mem_cons] at hc
    rcases hc with hc | hc | hc
    · exact .inl (List.mem_of_mem_take hc)
    · exact .inr hc
    · exact .inl (List.mem_of_mem_drop hc)

theorem IntroPlaced.filter_withIntro {t t' : Tree} {part : NodeId} (h : IntroPlaced t part t')
    (ht : Proper t) :
    ((withIntro t part t.nodes.size).filter fun c =>
        ¬ (c ∈ t.childrenOf part ∧ isIntroContent (t'.tag? c) = true)) =
      (withIntro t part t.nodes.size).filter fun c => !isIntroContent (t.tag? c) := by
  have hlt {c : NodeId} (hc : c ∈ t.childrenOf part) : c < t.nodes.size :=
    lt_size_of_parentOf (ht.forest.mem_childrenOf.1 hc)
  refine List.filter_congr fun c hc => ?_
  rcases mem_withIntro hc with hc | rfl
  · simp [hc, tag?_eq_of_contentOf (h.contentOf_of_lt (hlt hc))]
  · have hnew : t.nodes.size ∉ t.childrenOf part := fun hm => Nat.lt_irrefl _ (hlt hm)
    simp [hnew, tag?_eq_none_of_size_le (Nat.le_refl _), isIntroContent]

/-- The tree `t'` is `t` with the introduction of `part` in place and filled: what belongs in it is now at
the end of it, in its old order, and the part keeps its other children. -/
structure IntroFilled (t : Tree) (part : NodeId) (t' : Tree) : Prop where
  introduced : Introduced t part t'
  size : t'.nodes.size = t.nodes.size + introsMade t part
  new : intro? t part = none → t'.contentOf t.nodes.size =
    some { Node.element "partintro" with id := t.nodes.size }
  childrenOf : ∀ i, t'.childrenOf i =
    if i = part then (withIntro t part t.nodes.size).filter fun c => !isIntroContent (t.tag? c)
    else if i = (intro? t part).getD t.nodes.size then t.childrenOf i ++ introContent t part
    else t.childrenOf i

theorem run_gatherIntro {t : Tree} (h : Proper t) {part : NodeId}
    (ht : t.tag? part = some "part") :
    ∃ t', (gatherIntro part).run t =
        .ok (introsMade t part + (introContent t part).length) t' ∧ IntroFilled t part t' := by
  obtain ⟨t₁, hrun, hplaced⟩ := run_introOf h ht
  set intro := (intro? t part).getD t.nodes.size
  have htag {i : NodeId} (hi : i < t.nodes.size) : t₁.tag? i = t.tag? i :=
    tag?_eq_of_contentOf (hplaced.contentOf_of_lt hi)
  have hi : t₁.tag? intro = some "partintro" := hplaced.tag?_intro
  have hip : t₁.parentOf intro = some part := by rw [hplaced.parentOf, if_pos rfl]
  have hintro : isIntroContent (t₁.tag? intro) = false := by
    rw [hi]
    rfl
  have hpart : part < t.nodes.size := lt_size_of_tag? ht
  have hlt {c : NodeId} (hc : c ∈ t.childrenOf part) : c < t.nodes.size :=
    lt_size_of_parentOf (h.forest.mem_childrenOf.1 hc)
  obtain ⟨t₂, hrest, hr, hs, hsize, hcont, hpar, hchild⟩ :=
    run_tally_moveToIntro hplaced.rearranged.proper ((htag hpart).trans ht) hi hip
      (h.forest.nodup_childrenOf part) fun c hc =>
        (hplaced.parentOf_of_lt h (hlt hc)).trans (h.forest.mem_childrenOf.1 hc)
  have hcontent : (t.childrenOf part).filter (fun c => isIntroContent (t₁.tag? c)) =
      introContent t part := by
    rw [introContent]
    exact List.filter_congr fun c hc => by rw [htag (hlt hc)]
  have hpi : part ≠ intro := hplaced.rearranged.proper.forest.parent_ne hip
  simp only [h.forest.mem_childrenOf] at hpar
  refine ⟨t₂, ?_, ⟨hplaced.rearranged.trans hr, hplaced.sameBelow.trans hs,
    fun i hi => (hcont i).trans (hplaced.contentOf_of_lt hi), fun i hlt hn => ?_,
    fun i hlt hm => ⟨intro, ?_, ?_⟩, fun i hle hlt' => ?_, intro, ?_, ?_⟩,
    hsize.trans hplaced.size, fun hnone => ?_, fun i => ?_⟩
  · rw [gatherIntro, run_ask_childIds, if_pos hpart]
    simp only [EStateM.run_bind, hrun, hrest, hcontent, EStateM.run_pure]
  · rw [hpar, htag hlt, if_neg hn, hplaced.parentOf_of_lt h hlt]
  · rw [hpar, htag hlt, if_pos hm]
  · rw [tag?_eq_of_contentOf (hcont intro), hi]
  · rw [tag?_eq_of_contentOf (hcont i)]
    exact hplaced.new hle (hsize ▸ hlt')
  · rw [hpar, if_neg (by simp [hintro]), hip]
  · rw [tag?_eq_of_contentOf (hcont intro), hi]
  · rw [hcont, hplaced.contentOf, if_pos ⟨rfl, hnone⟩]
  · rw [hchild, hplaced.childrenOf, hcontent]
    by_cases hip : i = part
    · rw [if_pos hip, if_pos hip, if_neg (hip ▸ hpi), List.append_nil, hplaced.filter_withIntro h]
    · have hother : ∀ c ∈ t.childrenOf i, c ∉ t.childrenOf part := by
        intro c hc hcp
        rw [h.forest.mem_childrenOf] at hc hcp
        rw [hc, Option.some.injEq] at hcp
        exact hip hcp
      rw [if_neg hip, if_neg hip, List.filter_eq_self.2 fun c hc => by simp [hother c hc]]
      split
      · rfl
      · exact List.append_nil _

/-- No live part has content of an introduction directly below it. -/
def Tidied (t : Tree) : Prop :=
  ∀ p, t.Live p → t.tag? p = some "part" → ∀ c, t.parentOf c = some p →
    isIntroContent (t.tag? c) = false

/-- A gathered child is below an introduction, and whatever else is below a part was so before. -/
theorem Introduced.parentOf_content {t t' : Tree} {part : NodeId} (h : Introduced t part t')
    {p c : NodeId} (hp : t'.tag? p = some "part") (hc : t'.parentOf c = some p)
    (hm : isIntroContent (t'.tag? c) = true) :
    p ≠ part ∧ t.parentOf c = some p ∧ isIntroContent (t.tag? c) = true := by
  have hct : c < t.nodes.size := by
    by_contra hle
    rw [h.new c (Nat.le_of_not_lt hle) (lt_size_of_parentOf hc)] at hm
    simp [isIntroContent] at hm
  rw [tag?_eq_of_contentOf (h.contentOf c hct)] at hm
  by_cases hin : t.parentOf c = some part
  · obtain ⟨intro, hci, hi⟩ := h.gathered c hct ⟨hin, hm⟩
    rw [hc, Option.some.injEq] at hci
    rw [← hci, hp] at hi
    simp at hi
  · have hcp : t.parentOf c = some p := (h.parentOf c hct fun hm => hin hm.1).symm.trans hc
    refine ⟨?_, hcp, hm⟩
    rintro rfl
    exact hin hcp

theorem Introduced.hasIntro {t t' : Tree} {part p : NodeId} (h : Introduced t part t')
    (hp : HasIntro t p) : HasIntro t' p := by
  obtain ⟨c, hc, hct⟩ := hp
  have hcs := lt_size_of_tag? hct
  refine ⟨c, ?_, (tag?_eq_of_contentOf (h.contentOf c hcs)).trans hct⟩
  rw [h.parentOf c hcs (by simp [hct, isIntroContent]), hc]

theorem run_partIntro {t : Tree} (h : Proper t) :
    ∃ n t', partIntro.apply.run t = .ok n t' ∧ Rearranged t t' ∧ SameBelow introTags t t' ∧
      MovesOnly (fun i => isIntroContent (t.tag? i) = true) t t' ∧ Tidied t' ∧
      (∀ p, t'.Live p → t'.tag? p = some "part" → HasIntro t' p) ∧
      ∀ i, t.nodes.size ≤ i → i < t'.nodes.size → t'.tag? i = some "partintro" := by
  have hn : Selector.names "part" = [["part"]] := by cbv
  let ids := (Selector.mk [["part"]]).select t
  have hmem (id : NodeId) : id ∈ ids ↔ t.Live id ∧ t.tag? id = some "part" := by
    rw [h.forest.mem_select, Selector.accepts_one_iff]
    simp
  obtain ⟨n, t', hrun, hr, hs, hc, _, htidy, hintro, hnew⟩ := run_select_tally
    (Selector.parse_of_names hn rfl) gatherIntro
    (fun rest u => Rearranged t u ∧ SameBelow introTags t u ∧
      MovesOnly (fun i => isIntroContent (t.tag? i) = true) t u ∧
      (∀ id ∈ rest, t.tag? id = some "part") ∧
      (∀ p ∈ ids, p ∉ rest → ∀ c, u.parentOf c = some p → isIntroContent (u.tag? c) = false) ∧
      (∀ p ∈ ids, p ∉ rest → HasIntro u p) ∧
      ∀ i, t.nodes.size ≤ i → i < u.nodes.size → u.tag? i = some "partintro")
    (fun id rest u hinv => by
      obtain ⟨hr, hs, hc, ht, htidy, hintro, hnew⟩ := hinv
      have htag := ht id List.mem_cons_self
      have htag' := (hr.kept.tag?_iff (lt_size_of_tag? htag) (by decide)).2 htag
      obtain ⟨u', hrun, hi, -, -, -⟩ := run_gatherIntro hr.proper htag'
      have hc' : MovesOnly (fun i => isIntroContent (u.tag? i) = true) u u' :=
        hi.rearranged.movesOnly hr.proper hi.contentOf fun i hi' hm =>
          hi.parentOf i hi' fun hin => hm hin.2
      refine ⟨_, u', hrun, hr.trans hi.rearranged, hs.trans hi.sameBelow,
        hc.trans hc' fun i hi' _ hm => by rwa [hc.tag?_eq hi'] at hm,
        fun i hi' => ht i (List.mem_cons_of_mem id hi'), fun p hp hpr c hcp => ?_,
        fun p hp hpr => ?_, fun i hle hlt => ?_⟩
      · have hpu' : u'.tag? p = some "part" :=
          ((hr.trans hi.rearranged).kept.tag?_iff (lt_size_of_tag? ((hmem p).1 hp).2)
            (by decide)).2 ((hmem p).1 hp).2
        by_contra hm
        obtain ⟨hne, hcu, hmu⟩ :=
          hi.parentOf_content hpu' hcp ((Bool.not_eq_false _).mp hm)
        have hlast := htidy p hp (fun hin => (List.mem_cons.1 hin).elim hne hpr) c hcu
        rw [hmu] at hlast
        exact Bool.noConfusion hlast
      · by_cases hpi : p = id
        · exact hpi ▸ hi.intro
        · exact hi.hasIntro (hintro p hp fun hin => (List.mem_cons.1 hin).elim hpi hpr)
      · by_cases hlt' : i < u.nodes.size
        · rw [tag?_eq_of_contentOf (hi.contentOf i hlt')]
          exact hnew i hle hlt'
        · exact hi.new i (Nat.le_of_not_lt hlt') hlt)
    ⟨.refl h, .refl _ t, .refl _ h, fun id hid => ((hmem id).1 hid).2,
      fun p hp hpr => absurd hp hpr, fun p hp hpr => absurd hp hpr,
      fun i hi hlt => absurd hlt (Nat.not_lt.2 hi)⟩
  have hpart {p : NodeId} (hl : t'.Live p) (hp : t'.tag? p = some "part") : p ∈ ids := by
    have hpt : p < t.nodes.size := by
      by_contra hle
      rw [hnew p (Nat.le_of_not_lt hle) (lt_size_of_tag? hp)] at hp
      simp at hp
    exact (hmem p).2 ⟨(hr.live_iff h hpt).1 hl, (hc.tag?_eq hpt).symm.trans hp⟩
  exact ⟨n, t', hrun, hr, hs, hc, fun p hl hp => htidy p (hpart hl hp) List.not_mem_nil,
    fun p hl hp => hintro p (hpart hl hp) List.not_mem_nil, hnew⟩

end BookMarkup.Rule
