import BookMarkup.Proofs.Tree.Proper
import BookMarkup.Rule.Basic

/-!
What a rule for books may do to a proper tree. A rearranged tree has the same nodes, each inside the
same landmarks as before: nodes are moved by one level only, past elements that are no landmarks. A
thinned tree may have lost some nodes, and those left are inside the same landmarks. A change that
only moves gives no node another label, and only nodes of one kind other parents; after those for
listings no rule does more to the nodes that it leaves. All three relations compose, so that what each
step of a rule keeps is kept by whole runs.
-/

namespace BookMarkup.Rule

open BookMarkup.Tree

/-- The tags among which the rules after the first exchange. -/
def exchangedTags : List String :=
  ["screen", "programlisting", "formalpara", "example"]

def madeTags : List String :=
  ["partintro", "informalexample", "para"]

def touchedNames : List String :=
  ["numeration", "linenumbering", "frame", "rowsep", "colsep", "align", "valign", "language",
    "format", "role", "annotations"]

/-- Whether no rule moves a node past an element with this tag. -/
def isLandmark (tag : String) : Bool :=
  !("part" :: "partintro" :: "para" :: exchangedTags).contains tag &&
    !"example".toList.isSuffixOf tag.toList

def Inside (t : Tree) (S : NodeId → Prop) (i : NodeId) : Prop :=
  ∃ a, S a ∧ Within t i a

theorem inside_iff {t : Tree} {S : NodeId → Prop} {i : NodeId} :
    Inside t S i ↔ S i ∨ ∃ p, t.parentOf i = some p ∧ Inside t S p := by
  constructor
  · rintro ⟨a, ha, hw⟩
    cases hw with
    | refl => exact .inl ha
    | step hp hw => exact .inr ⟨_, hp, a, ha, hw⟩
  · rintro (hi | ⟨p, hp, a, ha, hw⟩)
    · exact ⟨i, hi, .refl i⟩
    · exact ⟨a, ha, .step hp hw⟩

/-- Below a node that is not inside one of `S`, a child is so only if it is one of them. -/
theorem inside_child_iff {t : Tree} {S : NodeId → Prop} {c p : NodeId}
    (hc : t.parentOf c = some p) (hp : ¬ Inside t S p) : Inside t S c ↔ S c := by
  simp only [inside_iff (i := c), hc, Option.some.injEq, exists_eq_left', hp, or_false]

/-- A set of known nodes that are landmarks, the root always being one. -/
def Landmarks (t : Tree) (S : NodeId → Prop) : Prop :=
  ∀ a, S a → a < t.nodes.size ∧ (t.root = some a ∨ ∃ tag, t.tag? a = some tag ∧ isLandmark tag)

theorem not_mem_exchangedTags {tag : String} (h : isLandmark tag) : tag ∉ exchangedTags := by
  intro hm
  simp only [isLandmark, Bool.and_eq_true, Bool.not_eq_true', List.contains_eq_mem,
    decide_eq_false_iff_not] at h
  exact h.1 (by simp [hm])

/-- An element below another one that rules move nodes past is no landmark. -/
theorem Landmarks.not_of_tag? {t : Tree} {S : NodeId → Prop} (hS : Landmarks t S) (h : Proper t)
    {w p : NodeId} {tag : String} (hp : t.parentOf w = some p) (ht : t.tag? w = some tag)
    (hl : isLandmark tag = false) : ¬ S w := by
  intro hw
  rcases (hS w hw).2 with hr | ⟨tag', ht', hl'⟩
  · exact h.root_ne_of_parentOf hp hr
  · rw [ht, Option.some.injEq] at ht'
    simp [← ht', hl] at hl'

theorem Landmarks.not_of_size_le {t : Tree} {S : NodeId → Prop} (hS : Landmarks t S) {w : NodeId}
    (hw : t.nodes.size ≤ w) : ¬ S w :=
  fun h => Nat.lt_irrefl _ (Nat.lt_of_lt_of_le (hS w h).1 hw)

/-- Detours change nothing: a node may get a new parent that is in no way special, if the parent of
that one is the old parent of the node. -/
theorem inside_iff_of_detours {t t' : Tree} {S : NodeId → Prop} {size : Nat}
    (closed : ∀ i < size, ∀ j, t.parentOf i = some j → j < size)
    (detour : ∀ i < size, t'.parentOf i = t.parentOf i ∨
      ∃ w, t'.parentOf i = some w ∧ ¬ S w ∧ t'.parentOf w = t.parentOf i)
    {i : NodeId} (hi : i < size) : Inside t' S i ↔ Inside t S i := by
  constructor
  · rintro ⟨a, ha, hw⟩
    obtain ⟨steps, hs⟩ := within_iff_ascend.1 hw
    clear hw
    -- A detour takes two steps at once, hence the strong induction.
    induction steps using Nat.strongRecOn generalizing i with
    | ind steps ih =>
        cases steps with
        | zero =>
            rw [ascend, Option.some.injEq] at hs
            exact ⟨a, ha, hs ▸ .refl i⟩
        | succ steps =>
            obtain ⟨j, hp, hs⟩ := Option.bind_eq_some_iff.1 hs
            rcases detour i hi with h | ⟨w, hw, hSw, h⟩
            · rw [hp, eq_comm] at h
              obtain ⟨b, hb, hwb⟩ := ih steps (Nat.lt_succ_self _) (closed i hi j h) hs
              exact ⟨b, hb, .step h hwb⟩
            · rw [hp, Option.some.injEq] at hw
              subst hw
              cases steps with
              | zero =>
                  rw [ascend, Option.some.injEq] at hs
                  exact absurd (hs ▸ ha) hSw
              | succ steps =>
                  obtain ⟨k, hk, hs⟩ := Option.bind_eq_some_iff.1 hs
                  rw [hk, eq_comm] at h
                  obtain ⟨b, hb, hwb⟩ := ih steps (by omega) (closed i hi k h) hs
                  exact ⟨b, hb, .step h hwb⟩
  · rintro ⟨a, ha, hw⟩
    induction hw with
    | refl a => exact ⟨a, ha, .refl a⟩
    | @step i j a hp _ ih =>
        obtain ⟨b, hb, hwb⟩ := ih (closed i hi j hp) ha
        rcases detour i hi with h | ⟨w, hw, _, h⟩
        · exact ⟨b, hb, .step (h.trans hp) hwb⟩
        · exact ⟨b, hb, .step hw (.step (h.trans hp) hwb)⟩

def Made (t t' : Tree) : Prop :=
  ∀ i tag, t.nodes.size ≤ i → t'.tag? i = some tag → tag ∈ madeTags

def Built (t t' : Tree) : Prop :=
  ∀ i, t.nodes.size ≤ i → i < t'.nodes.size → ∃ tag ∈ madeTags, t'.tag? i = some tag

/-- The tree `t'` has the nodes of `t`, each inside the same landmarks. -/
structure Rearranged (t t' : Tree) : Prop where
  proper : Proper t'
  root : t'.root = t.root
  kept : Kept exchangedTags touchedNames t t'
  built : Built t t'
  inside : ∀ S, Landmarks t S → ∀ i < t.nodes.size, Inside t' S i ↔ Inside t S i

/-- The tree `t'` may have lost nodes of `t`; those left are inside the same landmarks. -/
structure Thinned (t t' : Tree) : Prop where
  proper : Proper t'
  root : ∀ r, t'.root = some r → t.root = some r
  kept : Kept exchangedTags touchedNames t t'
  made : Made t t'
  live : ∀ i < t.nodes.size, t'.Live i → t.Live i
  inside : ∀ S, Landmarks t S → ∀ i < t.nodes.size, t'.Live i → (Inside t' S i ↔ Inside t S i)

section Relations

variable {t t' t'' : Tree}

theorem Landmarks.kept {S : NodeId → Prop} (hS : Landmarks t S)
    (hk : Kept exchangedTags touchedNames t t') (hr : ∀ a, t.root = some a → t'.root = some a) :
    Landmarks t' S := by
  intro a ha
  obtain ⟨hlt, h⟩ := hS a ha
  refine ⟨hk.lt hlt, h.imp (hr a) ?_⟩
  rintro ⟨tag, ht, hl⟩
  exact ⟨tag, (hk.tag?_iff hlt (not_mem_exchangedTags hl)).2 ht, hl⟩

theorem Built.made (h : Built t t') : Made t t' := by
  intro i tag hi ht
  obtain ⟨tag', hm, ht'⟩ := h i hi (lt_size_of_tag? ht)
  rw [ht, Option.some.injEq] at ht'
  exact ht' ▸ hm

theorem Built.of_size_le (h : t'.nodes.size ≤ t.nodes.size) : Built t t' :=
  fun _ hi hlt => absurd hlt (Nat.not_lt.2 (Nat.le_trans h hi))

theorem not_mem_exchangedTags_of_made {tag : String} (h : tag ∈ madeTags) :
    tag ∉ exchangedTags := by
  intro hm
  simp only [madeTags, List.mem_cons, List.not_mem_nil, or_false] at h
  rcases h with rfl | rfl | rfl <;> simp [exchangedTags] at hm

theorem Built.trans (h : Built t t') (hk : Kept exchangedTags touchedNames t' t'')
    (h' : Built t' t'') : Built t t'' := by
  intro i hi hlt
  by_cases hi' : i < t'.nodes.size
  · obtain ⟨tag, hm, ht⟩ := h i hi hi'
    exact ⟨tag, hm, (hk.tag?_iff hi' (not_mem_exchangedTags_of_made hm)).2 ht⟩
  · exact h' i (Nat.le_of_not_lt hi') hlt

theorem Made.of_size_le (h : t'.nodes.size ≤ t.nodes.size) : Made t t' :=
  fun _ _ hi ht => absurd (lt_size_of_tag? ht) (Nat.not_lt.2 (Nat.le_trans h hi))

theorem Made.trans (h : Made t t') (hk : Kept exchangedTags touchedNames t' t'')
    (h' : Made t' t'') : Made t t'' := by
  intro i tag hi ht
  by_cases hlt : i < t'.nodes.size
  · cases ht' : t'.tag? i with
    | some old =>
        have hold := h i old hi ht'
        rw [(hk.tag?_iff hlt (not_mem_exchangedTags_of_made hold)).2 ht', Option.some.injEq] at ht
        exact ht ▸ hold
    | none => simp [(hk.tag?_eq_none_iff hlt).2 ht'] at ht
  · exact h' i tag (Nat.le_of_not_lt hlt) ht

/-- Tags that are neither exchanged nor made stay with the elements that bear them. -/
theorem Made.tag?_iff (h : Made t t') (hk : Kept exchangedTags touchedNames t t') {i : NodeId}
    {tag : String} (he : tag ∉ exchangedTags) (hm : tag ∉ madeTags) :
    t'.tag? i = some tag ↔ t.tag? i = some tag := by
  constructor
  · intro ht
    refine (hk.tag?_iff (Nat.lt_of_not_le fun hi => hm (h i tag hi ht)) he).1 ht
  · intro ht
    exact (hk.tag?_iff (lt_size_of_tag? ht) he).2 ht

theorem Rearranged.refl (h : Proper t) : Rearranged t t :=
  ⟨h, rfl, .refl _ _ t, .of_size_le (Nat.le_refl _), fun _ _ _ _ => Iff.rfl⟩

theorem Rearranged.trans (h : Rearranged t t') (h' : Rearranged t' t'') : Rearranged t t'' where
  proper := h'.proper
  root := h'.root.trans h.root
  kept := h.kept.trans h'.kept
  built := h.built.trans h'.kept h'.built
  inside S hS i hi :=
    (h'.inside S (hS.kept h.kept fun _ ha => h.root.trans ha) i (h.kept.lt hi)).trans
      (h.inside S hS i hi)

theorem live_iff_inside {i : NodeId} :
    t.Live i ↔ Inside t (fun a => t.root = some a) i := Iff.rfl

theorem Rearranged.live_iff (h : Rearranged t t') (ht : Proper t) {i : NodeId}
    (hi : i < t.nodes.size) : t'.Live i ↔ t.Live i := by
  rw [live_iff_inside, live_iff_inside, h.root]
  exact h.inside _ (fun a ha => ⟨ht.forest.root_lt ha, .inl ha⟩) i hi

theorem Rearranged.live_iff_of_size (h : Rearranged t t') (ht : Proper t)
    (hs : t'.nodes.size = t.nodes.size) {i : NodeId} : t'.Live i ↔ t.Live i := by
  by_cases hi : i < t.nodes.size
  · exact h.live_iff ht hi
  · exact iff_of_false (fun hl => hi (hs ▸ h.proper.lt_of_live hl)) fun hl => hi (ht.lt_of_live hl)

theorem Rearranged.thinned (h : Rearranged t t') (ht : Proper t) : Thinned t t' where
  proper := h.proper
  root _ hr := h.root ▸ hr
  kept := h.kept
  made := h.built.made
  live _ hi hl := (h.live_iff ht hi).1 hl
  inside S hS i hi _ := h.inside S hS i hi

theorem Thinned.trans (h : Thinned t t') (h' : Thinned t' t'') : Thinned t t'' where
  proper := h'.proper
  root r hr := h.root r (h'.root r hr)
  kept := h.kept.trans h'.kept
  made := h.made.trans h'.kept h'.made
  live i hi hl := h.live i hi (h'.live i (h.kept.lt hi) hl)
  inside S hS i hi hl := by
    have hl' := h'.live i (h.kept.lt hi) hl
    -- A live node witnesses that the root is still the same.
    obtain ⟨r, hr, hwr⟩ := hl'
    have hroot (a : NodeId) (ha : t.root = some a) : t'.root = some a := by
      rw [h.root r hr, Option.some.injEq] at ha
      exact ha ▸ hr
    exact (h'.inside S (hS.kept h.kept hroot) i (h.kept.lt hi) hl).trans
      (h.inside S hS i hi ⟨r, hr, hwr⟩)

theorem Thinned.root_eq (h : Thinned t t') {r : NodeId} (hr : t.root = some r)
    (hl : t'.Live r) : t'.root = some r := by
  obtain ⟨q, hq, _⟩ := hl
  have hrq := h.root q hq
  rw [hr, Option.some.injEq] at hrq
  exact hrq ▸ hq

/-- An element that is left was there before, unless its tag is one of those exchanged or made. -/
theorem Thinned.live_of_tag? (h : Thinned t t') {i : NodeId} {tag : String} (hl : t'.Live i)
    (ht : t'.tag? i = some tag) (he : tag ∉ exchangedTags) (hm : tag ∉ madeTags) :
    t.Live i ∧ t.tag? i = some tag := by
  have ht' := (h.made.tag?_iff h.kept he hm).1 ht
  exact ⟨h.live i (lt_size_of_tag? ht') hl, ht'⟩

/-- A node with a parent that is left had one before: were it the root, it would be so still. -/
theorem Thinned.exists_parentOf (h : Thinned t t') {i p : NodeId} (hi : i < t.nodes.size)
    (hl : t'.Live i) (hp : t'.parentOf i = some p) : ∃ q, t.parentOf i = some q := by
  have hroot : t.root ≠ some i := by
    intro hr
    obtain ⟨r, hr', _⟩ := hl
    have hrt := h.root r hr'
    rw [hr, Option.some.injEq] at hrt
    exact h.proper.root_ne_of_parentOf hp (hrt ▸ hr')
  obtain ⟨q, hq, _⟩ := (h.live i hi hl).exists_parent hroot
  exact ⟨q, hq⟩

theorem Rearranged.of_detours (ht : Proper t) (proper : Proper t') (root : t'.root = t.root)
    (kept : Kept exchangedTags touchedNames t t') (built : Built t t')
    (detour : ∀ S, Landmarks t S → ∀ i < t.nodes.size, t'.parentOf i = t.parentOf i ∨
      ∃ w, t'.parentOf i = some w ∧ ¬ S w ∧ t'.parentOf w = t.parentOf i) : Rearranged t t' where
  proper := proper
  root := root
  kept := kept
  built := built
  inside S hS _ hi :=
    inside_iff_of_detours (fun _ _ _ hp => ht.forest.parent_lt hp) (detour S hS) hi

/-- Links may change by shortcuts: the new parent of a node is then the old parent of its parent. -/
theorem Rearranged.of_shortcuts (proper : Proper t') (root : t'.root = t.root)
    (kept : Kept exchangedTags touchedNames t t') (built : Built t t')
    (closed : ∀ i < t.nodes.size, ∀ j, t'.parentOf i = some j → j < t.nodes.size)
    (shortcut : ∀ S, Landmarks t S → ∀ i < t.nodes.size, t'.parentOf i = t.parentOf i ∨
      ∃ w, t.parentOf i = some w ∧ ¬ S w ∧ t.parentOf w = t'.parentOf i) : Rearranged t t' where
  proper := proper
  root := root
  kept := kept
  built := built
  inside S hS _ hi :=
    (inside_iff_of_detours closed
      (fun i hi => (shortcut S hS i hi).imp_left Eq.symm) hi).symm

theorem Rearranged.of_same_parents (ht : Proper t) (proper : Proper t') (root : t'.root = t.root)
    (kept : Kept exchangedTags touchedNames t t') (built : Built t t')
    (hp : ∀ i, t'.parentOf i = t.parentOf i) : Rearranged t t' :=
  .of_detours ht proper root kept built fun _ _ i _ => .inl (hp i)

theorem Rearranged.plant (h : Proper t) {tag : String} (hm : tag ∈ madeTags) :
    Rearranged t (t.plant (Node.element tag)) := by
  refine .of_same_parents h (h.plant _) rfl (.plant t _) (fun i hi hlt => ?_) (parentOf_plant t _)
  rw [size_plant] at hlt
  obtain rfl := Nat.le_antisymm (Nat.lt_succ_iff.1 hlt) hi
  exact ⟨tag, hm, by rw [tag?_eq, contentOf_plant, if_pos rfl]; rfl⟩

theorem Kept.update_name {id : NodeId} {old tag : String} (ht : t.tag? id = some old)
    (hold : old ∈ exchangedTags) (hnew : tag ∈ exchangedTags) :
    Kept exchangedTags touchedNames t (t.update id fun n => { n with name := tag }) := by
  intro i n hn
  rw [contentOf_update (Node.relabels_name tag), hn]
  split
  · next hi =>
    subst hi
    rw [tag?_eq, hn, Option.bind_some] at ht
    have hname : n.name = old := by
      by_cases he : n.isElement
      · simpa [Node.tag?, he] using ht
      · simp [Node.tag?, he] at ht
    exact ⟨_, rfl, rfl, rfl, .inr ⟨hname ▸ hold, hnew⟩, fun _ _ => rfl⟩
  · exact ⟨n, rfl, rfl, rfl, .inl rfl, fun _ _ => rfl⟩

theorem Rearranged.update_name (h : Proper t) {id : NodeId} {old : String} (tag : String)
    (ht : t.tag? id = some old) (hold : old ∈ exchangedTags) (hnew : tag ∈ exchangedTags) :
    Rearranged t (t.update id fun n => { n with name := tag }) :=
  .of_same_parents h (h.update (Node.relabels_name tag) id) rfl (Kept.update_name ht hold hnew)
    (.of_size_le (Nat.le_of_eq (size_update t id _)))
    (parentOf_update (Node.relabels_name tag) t id)

theorem Thinned.of_parentOf (ht : Proper t) (proper : Proper t') (root : t'.root = t.root)
    (kept : Kept exchangedTags touchedNames t t') (made : Made t t')
    (hp : ∀ i < t.nodes.size, t'.parentOf i = t.parentOf i) :
    Thinned t t' ∧ ∀ i < t.nodes.size, t'.Live i ↔ t.Live i := by
  have hin (S : NodeId → Prop) (i : NodeId) (hi : i < t.nodes.size) :
      Inside t' S i ↔ Inside t S i :=
    inside_iff_of_detours (fun _ _ _ hp => ht.forest.parent_lt hp) (fun i hi => .inl (hp i hi)) hi
  have hl (i : NodeId) (hi : i < t.nodes.size) : t'.Live i ↔ t.Live i := by
    rw [live_iff_inside, live_iff_inside, root]
    exact hin _ i hi
  exact ⟨⟨proper, fun r hr => root ▸ hr, kept, made, fun i hi h => (hl i hi).1 h,
    fun S _ i hi _ => hin S i hi⟩, hl⟩

/-! ### Losing nodes -/

/-- A node that is detached is lost with all below it, and nothing else is. -/
theorem live_detached (h : Proper t) {c i : NodeId} :
    (t.detached c).Live i ↔ t.Live i ∧ ¬ Within t i c := by
  have hpar := parentOf_detached h.forest c
  by_cases hi : Within t i c
  · simp only [hi, not_true, and_false, iff_false]
    rintro ⟨r, hr, hw⟩
    rw [within_relink_of_within h.forest hpar (by simp) hi] at hw
    rw [root_detached] at hr
    rcases hw with ⟨_, hrc⟩ | ⟨q, hq, _⟩
    · split at hr
      · simp at hr
      · next hc =>
        obtain rfl := hrc.eq_of_parentOf (h.top hr)
        exact hc ⟨h.top hr, hr⟩
    · simp at hq
  · simp only [hi, not_false_iff, and_true, Live, root_detached,
      within_relink_of_not_within hpar hi]
    split
    · next hc =>
      simp only [reduceCtorEq, false_and, exists_false, false_iff]
      rintro ⟨r, hr, hw⟩
      rw [hc.2, Option.some.injEq] at hr
      exact hi (hr ▸ hw)
    · rfl

theorem Thinned.detached (h : Proper t) (c : NodeId) : Thinned t (t.detached c) where
  proper := h.detached c
  root r hr := by
    rw [root_detached] at hr
    split at hr
    · simp at hr
    · exact hr
  kept := .of_contentOf fun i n hn => (contentOf_detached h.forest c i).trans hn
  made := .of_size_le (Nat.le_of_eq (size_detached c))
  live i _ hl := ((live_detached h).1 hl).1
  inside S _ i _ hl := by
    have hi := ((live_detached h).1 hl).2
    simp only [Inside, within_relink_of_not_within (parentOf_detached h.forest c) hi]

end Relations

/-! ### Changes of parents alone -/

/-- Nodes only move, and only those in `M`: the nodes of `t` have the same labels in `t'`, and those
that are left and not in `M` the same parents. -/
structure MovesOnly (M : NodeId → Prop) (t t' : Tree) : Prop where
  thinned : Thinned t t'
  contentOf : ∀ i < t.nodes.size, t'.contentOf i = t.contentOf i
  parentOf : ∀ i < t.nodes.size, t'.Live i → ¬ M i → t'.parentOf i = t.parentOf i

section MovesOnly

variable {M M' : NodeId → Prop} {t t' t'' : Tree}

theorem MovesOnly.refl (M : NodeId → Prop) (h : Proper t) : MovesOnly M t t :=
  ⟨(Rearranged.refl h).thinned h, fun _ _ => rfl, fun _ _ _ _ => rfl⟩

theorem MovesOnly.trans (h : MovesOnly M t t') (h' : MovesOnly M' t' t'')
    (hM : ∀ i < t.nodes.size, t''.Live i → M' i → M i) : MovesOnly M t t'' where
  thinned := h.thinned.trans h'.thinned
  contentOf i hi := (h'.contentOf i (h.thinned.kept.lt hi)).trans (h.contentOf i hi)
  parentOf i hi hl hm := by
    have hi' := h.thinned.kept.lt hi
    have hl' := h'.thinned.live i hi' hl
    exact (h'.parentOf i hi' hl (mt (hM i hi hl) hm)).trans (h.parentOf i hi hl' hm)

theorem MovesOnly.mono (h : MovesOnly M t t') (hM : ∀ i < t.nodes.size, M i → M' i) :
    MovesOnly M' t t' :=
  ⟨h.thinned, h.contentOf, fun i hi hl hm => h.parentOf i hi hl (mt (hM i hi) hm)⟩

theorem MovesOnly.tag?_eq (h : MovesOnly M t t') {i : NodeId} (hi : i < t.nodes.size) :
    t'.tag? i = t.tag? i :=
  tag?_eq_of_contentOf (h.contentOf i hi)

theorem MovesOnly.ungained (h : MovesOnly M t t') (names : List String) : Ungained names t t' :=
  .of_contentOf h.contentOf

theorem Rearranged.movesOnly (h : Rearranged t t') (ht : Proper t)
    (hc : ∀ i < t.nodes.size, t'.contentOf i = t.contentOf i)
    (hp : ∀ i < t.nodes.size, ¬ M i → t'.parentOf i = t.parentOf i) : MovesOnly M t t' :=
  ⟨h.thinned ht, hc, fun i hi _ => hp i hi⟩

/-- Below a live node there are none but its former children, moved nodes and new ones. -/
theorem MovesOnly.parentOf_of_live (h : MovesOnly M t t') {c p : NodeId} (hc : c < t.nodes.size)
    (hp : t'.Live p) (hcp : t'.parentOf c = some p) (hm : ¬ M c) : t.parentOf c = some p := by
  rw [← h.parentOf c hc (hp.child hcp) hm, hcp]

end MovesOnly

end BookMarkup.Rule
