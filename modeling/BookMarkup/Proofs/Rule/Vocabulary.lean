import BookMarkup.Proofs.Attributes
import BookMarkup.Proofs.Rule.Run
import BookMarkup.Proofs.Tree.Precedence
import BookMarkup.Rule.Book
import Mathlib.Algebra.BigOperators.Group.List.Basic

/-!
The rules for the vocabulary on proper trees. Renaming tags passes every live tag through the pairs
and touches nothing else; removing elements takes away exactly what is within the elements that the
selectors accept, whatever the order of the selectors; removing attributes leaves tags and links as
they are; renaming one fails only where the new name has no place.
-/

namespace BookMarkup.Rule

open BookMarkup.Tree

/-! ### Labels -/

structure Relabelled (t t' : Tree) : Prop where
  proper : Proper t'
  root : t'.root = t.root
  size : t'.nodes.size = t.nodes.size
  parentOf : ∀ i, t'.parentOf i = t.parentOf i
  childrenOf : ∀ i, t'.childrenOf i = t.childrenOf i

section Relabelled

variable {t t' t'' : Tree}

theorem Relabelled.refl (h : Proper t) : Relabelled t t :=
  ⟨h, rfl, rfl, fun _ => rfl, fun _ => rfl⟩

theorem Relabelled.trans (h : Relabelled t t') (h' : Relabelled t' t'') : Relabelled t t'' where
  proper := h'.proper
  root := h'.root.trans h.root
  size := h'.size.trans h.size
  parentOf i := (h'.parentOf i).trans (h.parentOf i)
  childrenOf i := (h'.childrenOf i).trans (h.childrenOf i)

theorem Relabelled.update (h : Proper t) {f : Node → Node} (hf : Node.Relabels f) (id : NodeId) :
    Relabelled t (t.update id f) where
  proper := h.update hf id
  root := rfl
  size := size_update t id f
  parentOf := parentOf_update hf t id
  childrenOf := childrenOf_update hf t id

theorem Relabelled.within_iff (h : Relabelled t t') {i j : NodeId} :
    Within t' i j ↔ Within t i j := by
  constructor
  · intro hw
    induction hw with
    | refl => exact .refl _
    | step hp _ ih => exact .step ((h.parentOf _).symm.trans hp) ih
  · intro hw
    induction hw with
    | refl => exact .refl _
    | step hp _ ih => exact .step ((h.parentOf _).trans hp) ih

theorem Relabelled.live_iff (h : Relabelled t t') {i : NodeId} : t'.Live i ↔ t.Live i := by
  simp only [Live, h.root, h.within_iff]

theorem Relabelled.map_id_live (h : Relabelled t t') (ht : Proper t) :
    t'.live.map Node.id = t.live.map Node.id := by
  cases hr : t.root with
  | none => simp only [live, h.root, hr]
  | some r =>
      have hf := h.proper.forest
      rw [hf.live_eq (h.root.trans hr), ht.forest.live_eq hr]
      refine ht.forest.map_subtree hf Node.id (ht.forest.root_lt hr) fun i hi =>
        ⟨?_, h.childrenOf i⟩
      have hlt : i < t.nodes.size := ht.lt_of_live ⟨r, hr, hi⟩
      obtain ⟨n, hn⟩ := Option.isSome_iff_exists.1 (get?_isSome_iff.2 hlt)
      obtain ⟨m, hm⟩ := Option.isSome_iff_exists.1 (get?_isSome_iff.2 (h.size ▸ hlt))
      rw [hn, hm, Option.map_some, Option.map_some, ht.forest.numbered hn, hf.numbered hm]

theorem Relabelled.rearranged (h : Relabelled t t') (ht : Proper t)
    (hk : Kept exchangedTags touchedNames t t') : Rearranged t t' :=
  .of_same_parents ht h.proper h.root hk (.of_size_le (Nat.le_of_eq h.size)) h.parentOf

theorem Relabelled.tag?_eq {names : List String} (h : Relabelled t t') (hk : Kept [] names t t')
    (i : NodeId) : t'.tag? i = t.tag? i := by
  by_cases hi : i < t.nodes.size
  · exact hk.tag?_eq hi
  · have hi' : ¬ i < t'.nodes.size := h.size ▸ hi
    rw [tag?, get?_eq_none_iff.2 (Nat.le_of_not_lt hi'), tag?,
      get?_eq_none_iff.2 (Nat.le_of_not_lt hi)]

end Relabelled

/-! ### Loops over labels -/

def among (names : List String) (g : Node → Node) (n : Node) : Node :=
  if n.isElement ∧ n.name ∈ names then g n else n

theorem tag?_of_contentOf {t : Tree} {id : NodeId} {n : Node} (hn : t.contentOf id = some n)
    (he : n.isElement) : t.tag? id = some n.name := by
  rw [tag?_eq, hn, Option.bind_some, Node.tag?, if_pos he]

theorem contentOf_update_of {t : Tree} {id : NodeId} {n : Node} (hn : t.contentOf id = some n)
    {f : Node → Node} (hf : Node.Relabels f) (i : NodeId) :
    (t.update id f).contentOf i = if i = id then some (f n) else t.contentOf i := by
  rw [contentOf_update hf]
  by_cases hi : i = id
  · rw [if_pos hi.symm, if_pos hi, hi, hn, Option.map_some]
  · rw [if_neg (Ne.symm hi), if_neg hi]

/-- The labels of the nodes that a loop comes to are passed through `g`. They may be passed through
twice, and `Q` is what a step asks of a label. -/
theorem run_tally_relabel {f : NodeId → Edit Nat} {g : Node → Node} {Q : Node → Prop}
    (hg : ∀ n, Q n → Q (g n) ∧ g (g n) = g n)
    (step : ∀ {t : Tree}, Proper t → ∀ id n, t.contentOf id = some n → Q n →
      ∃ m t', (f id).run t = .ok m t' ∧ Relabelled t t' ∧
        ∀ i, t'.contentOf i = if i = id then some (g n) else t.contentOf i)
    {t : Tree} (h : Proper t) {ids : List NodeId}
    (hids : ∀ id ∈ ids, ∃ n, t.contentOf id = some n ∧ Q n) :
    ∃ m t', (Edit.tally f ids).run t = .ok m t' ∧ Relabelled t t' ∧
      ∀ i, t'.contentOf i = if i ∈ ids then (t.contentOf i).map g else t.contentOf i := by
  induction ids generalizing t with
  | nil => exact ⟨0, t, rfl, .refl h, by simp⟩
  | cons id ids ih =>
      obtain ⟨n, hn, hq⟩ := hids id List.mem_cons_self
      obtain ⟨m, t₁, hrun, hr, hc⟩ := step h id n hn hq
      obtain ⟨m', t', hrest, hr', hc'⟩ := ih hr.proper fun i hi => by
        obtain ⟨k, hk, hqk⟩ := hids i (List.mem_cons_of_mem id hi)
        rw [hc]
        split
        · exact ⟨g n, rfl, (hg n hq).1⟩
        · exact ⟨k, hk, hqk⟩
      refine ⟨m + m', t', ?_, hr.trans hr', fun i => ?_⟩
      · simp only [Edit.tally, EStateM.run_bind, hrun, hrest, EStateM.run_pure]
      · rw [hc', hc]
        by_cases hid : i = id
        · subst hid
          simp [hn, (hg n hq).2]
        · simp [hid]

/-- A loop over what a selector of one step finds passes the live elements with its tags
through `g`. -/
theorem run_tally_select_relabel (names : List String) {f : NodeId → Edit Nat} {g : Node → Node}
    {Q : Node → Prop} (hg : ∀ n, Q n → Q (g n) ∧ g (g n) = g n)
    (step : ∀ {t : Tree}, Proper t → ∀ id n, t.contentOf id = some n → Q n →
      ∃ m t', (f id).run t = .ok m t' ∧ Relabelled t t' ∧
        ∀ i, t'.contentOf i = if i = id then some (g n) else t.contentOf i)
    {t : Tree} (h : Proper t)
    (hq : ∀ i n, t.contentOf i = some n → n.isElement → n.name ∈ names → Q n) :
    ∃ m t', (Edit.tally f ((Selector.mk [names]).select t)).run t = .ok m t' ∧ Relabelled t t' ∧
      (∀ i, t.Live i → t'.contentOf i = (t.contentOf i).map (among names g)) ∧
      ∀ i, ¬ t.Live i → t'.contentOf i = t.contentOf i := by
  have hmem (i : NodeId) : i ∈ (Selector.mk [names]).select t ↔
      t.Live i ∧ ∃ tag, t.tag? i = some tag ∧ tag ∈ names := by
    rw [h.forest.mem_select, Selector.accepts_one_iff]
  obtain ⟨m, t', hrun, hr, hc⟩ := run_tally_relabel hg step h fun i hi => by
    obtain ⟨_, tag, ht, hm⟩ := (hmem i).1 hi
    rw [tag?_eq] at ht
    obtain ⟨n, hn, ht⟩ := Option.bind_eq_some_iff.1 ht
    obtain ⟨he, rfl⟩ := Node.tag?_eq_some_iff.1 ht
    exact ⟨n, hn, hq i n hn he hm⟩
  refine ⟨m, t', hrun, hr, fun i hl => ?_, fun i hl => ?_⟩
  · rw [hc]
    simp only [hmem, hl, true_and, tag?_eq]
    cases hn : t.contentOf i with
    | none => simp
    | some n =>
        by_cases he : n.isElement
        · by_cases hin : n.name ∈ names <;> simp [Node.tag?, he, hin, among]
        · simp [Node.tag?, he, among]
  · rw [hc, if_neg fun hi => hl ((hmem i).1 hi).1]

/-! ### Tags -/

/-- The tag that the pairs give to elements with a tag, each pair seeing what the ones before it
gave. -/
def newTag : List (String × String) → String → String
  | [], tag => tag
  | p :: pairs, tag => newTag pairs (if tag ∈ (Selector.names p.1).flatten then p.2 else tag)

def retagged (f : String → String) (n : Node) : Node :=
  if n.isElement then { n with name := f n.name } else n

theorem tag?_retagged (f : String → String) (n : Node) :
    (retagged f n).tag? = n.tag?.map f := by
  rw [retagged]
  by_cases he : n.isElement
  · have he' : ({ n with name := f n.name } : Node).isElement = true := he
    simp [Node.tag?, he, he']
  · simp [Node.tag?, he]

theorem tag?_eq_of_retagged {t t' : Tree} {f : String → String} {i : NodeId}
    (hc : t'.contentOf i = (t.contentOf i).map (retagged f)) : t'.tag? i = (t.tag? i).map f := by
  rw [tag?_eq, hc, tag?_eq]
  cases t.contentOf i with
  | none => rfl
  | some n => exact tag?_retagged f n

/-- How many of the pairs rename an element with a tag, each pair seeing what the ones before it
gave. -/
def renamings : List (String × String) → String → Nat
  | [], _ => 0
  | p :: pairs, tag =>
    if tag ∈ (Selector.names p.1).flatten then 1 + renamings pairs p.2 else renamings pairs tag

def renamingsOf (pairs : List (String × String)) (t : Tree) (i : NodeId) : Nat :=
  ((t.tag? i).map (renamings pairs)).getD 0

theorem run_tally_rename {t : Tree} (h : Proper t) (names : List String) (tag : String) :
    ∃ t', (Edit.tally (fun id => do Edit.rename id tag; return 1)
        ((Selector.mk [names]).select t)).run t =
          .ok ((Selector.mk [names]).select t).length t' ∧
      Relabelled t t' ∧
      (∀ i, t.Live i → t'.contentOf i = (t.contentOf i).map
        (retagged fun old => if old ∈ names then tag else old)) ∧
      ∀ i, ¬ t.Live i → t'.contentOf i = t.contentOf i := by
  let named (n : Node) : Node := { n with name := tag }
  obtain ⟨n, t', hrun, hr, hlive, hdead⟩ := run_tally_select_relabel names
    (f := fun id => do Edit.rename id tag; return 1) (g := named) (Q := fun n => n.isElement)
    (fun n he => ⟨he, rfl⟩)
    (fun ht id n hn he => by
      refine ⟨1, _, ?_, .update ht (Node.relabels_name tag) id, fun i => ?_⟩
      · have htag : _ = some n.name := tag?_of_contentOf hn he
        simp only [EStateM.run_bind, run_rename_of_tag? htag tag, EStateM.run_pure]
      · exact contentOf_update_of hn (Node.relabels_name tag) i)
    h fun _ _ _ he _ => he
  refine ⟨t', ?_, hr, fun i hl => ?_, hdead⟩
  · rw [count_tally_one hrun] at hrun
    exact hrun
  · rw [hlive i hl]
    refine Option.map_congr fun n _ => ?_
    by_cases he : n.isElement
    · by_cases hin : n.name ∈ names <;> simp [among, retagged, he, hin, named]
    · simp [among, retagged, he]

theorem retagged_retagged (f g : String → String) (n : Node) :
    retagged g (retagged f n) = retagged (fun tag => g (f tag)) n := by
  by_cases he : n.isElement
  · have he' : ({ n with name := f n.name } : Node).isElement = true := he
    simp only [retagged, he, he', if_true]
  · have hself (k : String → String) : retagged k n = n := if_neg he
    rw [hself, hself, hself]

/-- Every live tag is passed through the pairs, and nothing else changes. -/
theorem run_renameEach {t : Tree} (h : Proper t) {pairs : List (String × String)}
    (hpairs : ∀ p ∈ pairs, ∃ names, Selector.parse p.1 = .ok ⟨[names]⟩) :
    ∃ t', (renameEach pairs).run t =
        .ok ((t.live.map Node.id).map (renamingsOf pairs t)).sum t' ∧ Relabelled t t' ∧
      (∀ i, t.Live i → t'.contentOf i = (t.contentOf i).map (retagged (newTag pairs))) ∧
      ∀ i, ¬ t.Live i → t'.contentOf i = t.contentOf i := by
  induction pairs generalizing t with
  | nil =>
      refine ⟨t, ?_, .refl h, fun i _ => ?_, fun i _ => rfl⟩
      · have hnone : renamingsOf [] t = fun _ => 0 := by
          funext i
          cases ht : t.tag? i <;> simp [renamingsOf, renamings, ht]
        rw [hnone, List.map_const', List.sum_replicate_nat, Nat.mul_zero]
        rfl
      · have hid (n : Node) : retagged (newTag []) n = n := by simp [retagged, newTag]
        rw [funext hid, Option.map_id']
  | cons p pairs ih =>
      obtain ⟨names, hp⟩ := hpairs p List.mem_cons_self
      obtain ⟨t₁, hrun, hr, hlive₁, hdead₁⟩ := run_tally_rename h names p.2
      obtain ⟨t₂, hrest, hr', hlive, hdead⟩ :=
        ih hr.proper fun q hq => hpairs q (List.mem_cons_of_mem p hq)
      have hcount : ((Selector.mk [names]).select t).length +
          ((t₁.live.map Node.id).map (renamingsOf pairs t₁)).sum =
          ((t.live.map Node.id).map (renamingsOf (p :: pairs) t)).sum := by
        rw [hr.map_id_live h, select_eq_filter, ← sum_map_counted, ← List.sum_map_add]
        refine congrArg List.sum (List.map_congr_left fun i hi => ?_)
        have hl := h.forest.mem_map_live.1 hi
        rw [renamingsOf, renamingsOf, tag?_eq_of_retagged (hlive₁ i hl)]
        simp only [Selector.accepts_one_iff]
        cases t.tag? i with
        | none => simp
        | some old =>
            by_cases hin : old ∈ names <;> simp [renamings, Selector.flatten_names hp, hin]
      refine ⟨t₂, ?_, hr.trans hr', fun i hl => ?_, fun i hl => ?_⟩
      · rw [← hcount]
        simp only [renameEach, EStateM.run_bind, run_select hp, hrun, hrest, EStateM.run_pure]
      · rw [hlive i (hr.live_iff.2 hl), hlive₁ i hl, Option.map_map]
        refine Option.map_congr fun n _ => ?_
        rw [Function.comp_apply, retagged_retagged]
        simp only [newTag, Selector.flatten_names hp]
      · rw [hdead i (mt hr.live_iff.1 hl), hdead₁ i hl]

def bookTag (tag : String) : String :=
  (bookTags.lookup tag).getD tag

/-- A tag on neither side of the pairs is the new tag of its own elements only. -/
theorem bookTag_eq_iff {tag name : String} (hold : name ∉ bookTags.map Prod.fst)
    (hnew : name ∉ bookTags.map Prod.snd) : bookTag tag = name ↔ tag = name := by
  rw [bookTag]
  cases h : bookTags.lookup tag with
  | none => simp
  | some new =>
      have hm : (tag, new) ∈ bookTags := by
        obtain ⟨before, after, he, _⟩ := List.lookup_eq_some_iff.1 h
        simp [he]
      simp only [Option.getD_some]
      refine iff_of_false ?_ ?_
      · rintro rfl
        exact hnew (List.mem_map_of_mem hm)
      · rintro rfl
        exact hold (List.mem_map_of_mem hm)

theorem bookTag_not_mem (tag : String) : bookTag tag ∉ bookTags.map Prod.fst := by
  rw [bookTag]
  cases h : bookTags.lookup tag with
  | none =>
      intro hm
      obtain ⟨p, hp, rfl⟩ := List.mem_map.1 hm
      have hne := List.lookup_eq_none_iff.1 h p hp
      simp at hne
  | some new =>
      have hm : new ∈ bookTags.map Prod.snd := by
        obtain ⟨before, after, he, _⟩ := List.lookup_eq_some_iff.1 h
        simp [he]
      have hdisjoint : ∀ new ∈ bookTags.map Prod.snd, new ∉ bookTags.map Prod.fst := by decide
      exact hdisjoint new hm

theorem newTag_bookTags : newTag bookTags = bookTag := by
  funext tag
  have h₁ : (Selector.names "simpara").flatten = ["simpara"] := by cbv
  have h₂ : (Selector.names "literal").flatten = ["literal"] := by cbv
  have h₃ : (Selector.names "phrase").flatten = ["phrase"] := by cbv
  have h₄ : (Selector.names "textobject").flatten = ["textobject"] := by cbv
  simp only [newTag, bookTag, bookTags, h₁, h₂, h₃, h₄, List.mem_singleton]
  by_cases e₁ : tag = "simpara"
  · subst e₁; decide
  by_cases e₂ : tag = "literal"
  · subst e₂; decide
  by_cases e₃ : tag = "phrase"
  · subst e₃; decide
  by_cases e₄ : tag = "textobject"
  · subst e₄; decide
  have none (name : String) (h : tag ≠ name) : (tag == name) = false := by simpa using h
  simp [e₁, e₂, e₃, e₄, List.lookup_cons, none]

theorem parse_bookTags : ∀ p ∈ bookTags, Selector.parse p.1 = .ok ⟨[[p.1]]⟩ := by
  have h₁ : Selector.names "simpara" = [["simpara"]] := by cbv
  have h₂ : Selector.names "literal" = [["literal"]] := by cbv
  have h₃ : Selector.names "phrase" = [["phrase"]] := by cbv
  have h₄ : Selector.names "textobject" = [["textobject"]] := by cbv
  rw [bookTags]
  simp only [List.forall_mem_cons, List.not_mem_nil, false_imp_iff, implies_true, and_true]
  exact ⟨Selector.parse_of_names h₁ rfl, Selector.parse_of_names h₂ rfl,
    Selector.parse_of_names h₃ rfl, Selector.parse_of_names h₄ rfl⟩

theorem run_renameElements {t : Tree} (h : Proper t) :
    ∃ n t', (renameElements bookTags).apply.run t = .ok n t' ∧ Relabelled t t' ∧
      (∀ i, t.Live i → t'.contentOf i = (t.contentOf i).map (retagged bookTag)) ∧
      ∀ i, ¬ t.Live i → t'.contentOf i = t.contentOf i := by
  rw [← newTag_bookTags]
  exact ⟨_, run_renameEach h fun p hp => ⟨_, parse_bookTags p hp⟩⟩

/-! ### Attributes -/

theorem Relabelled.update_attributes {t : Tree} (h : Proper t) (id : NodeId)
    (f : Attributes → Attributes) :
    Relabelled t (t.update id fun n => { n with attributes := f n.attributes }) :=
  .update h (Node.relabels_attributes f) id

def dropped (pairs : List (String × List String)) (tag : String) : List String :=
  pairs.flatMap fun p => if tag ∈ (Selector.names p.1).flatten then p.2 else []

def bared (names : List String) (n : Node) : Node :=
  { n with attributes := n.attributes.without names }

def stripped (pairs : List (String × List String)) (n : Node) : Node :=
  if n.isElement then bared (dropped pairs n.name) n else n

theorem mem_dropped_iff {pairs : List (String × List String)} {tag name : String} :
    name ∈ dropped pairs tag ↔
      ∃ p ∈ pairs, tag ∈ (Selector.names p.1).flatten ∧ name ∈ p.2 := by
  simp only [dropped, List.mem_flatMap]
  refine exists_congr fun p => and_congr_right fun _ => ?_
  split
  · next h => simp [h]
  · next h => simp [h]

@[simp] theorem bared_nil (n : Node) : bared [] n = n := by
  simp [bared]

theorem bared_bared (names later : List String) (n : Node) :
    bared later (bared names n) = bared (names ++ later) n := by
  simp [bared]

theorem run_removeAttributes {t : Tree} (h : Proper t) (names : List String) {id : NodeId}
    {n : Node} (hn : t.contentOf id = some n) :
    ∃ m t', (removeAttributes names id).run t = .ok m t' ∧ Relabelled t t' ∧
      ∀ i, t'.contentOf i = if i = id then some (bared names n) else t.contentOf i := by
  induction names generalizing t n with
  | nil =>
      refine ⟨0, t, rfl, .refl h, fun i => ?_⟩
      split
      · next hi => simp [hi, hn, bared]
      · rfl
  | cons name names ih =>
      have hid : id < t.nodes.size := contentOf_isSome_iff.1 (by simp [hn])
      obtain ⟨old, hold⟩ := Option.isSome_iff_exists.1 (get?_isSome_iff.2 hid)
      have hr := Relabelled.update_attributes h id fun a => a.erase name
      have hc := contentOf_update_of hn (Node.relabels_attributes fun a => a.erase name)
      obtain ⟨m, t', hrest, hr', hc'⟩ := ih hr.proper ((hc id).trans (if_pos rfl))
      refine ⟨(if (old.attribute? name).isSome then 1 else 0) + m, t', ?_, hr.trans hr', fun i => ?_⟩
      · simp only [removeAttributes, EStateM.run_bind, run_removeAttribute, hold, hrest,
          EStateM.run_pure]
      · rw [hc', hc]
        split
        · simp [bared, Attributes.erase_eq_without]
        · rfl

def selects (path : String) (t : Tree) (i : NodeId) : Bool :=
  (Selector.parse path).toOption.any (·.accepts t i)

theorem selects_of_parse {path : String} {s : Selector} (hs : Selector.parse path = .ok s)
    (t : Tree) (i : NodeId) : selects path t i = s.accepts t i := by
  rw [selects, hs, Except.toOption, Option.any_some]

/-- What is above a node, itself included, decides whether a path accepts it. -/
theorem selects_congr {t t' : Tree} (path : String) {i : NodeId}
    (h : ∀ j, Within t i j → t'.tag? j = t.tag? j ∧ t'.parentOf j = t.parentOf j) :
    selects path t' i = selects path t i := by
  cases hs : Selector.parse path with
  | error e => simp only [selects, hs, Except.toOption, Option.any_none]
  | ok s => rw [selects_of_parse hs, selects_of_parse hs, s.accepts_congr h]

def listedFor (rows : List (String × List String)) (t : Tree) (i : NodeId) : List String :=
  rows.flatMap fun row => if selects row.1 t i then row.2 else []

theorem mem_listedFor {rows : List (String × List String)} {t : Tree} {i : NodeId}
    {name : String} :
    name ∈ listedFor rows t i ↔ ∃ row ∈ rows, selects row.1 t i = true ∧ name ∈ row.2 := by
  simp only [listedFor, List.mem_flatMap]
  refine exists_congr fun row => and_congr_right fun _ => ?_
  split
  · next h => simp [h]
  · next h => simp [h]

theorem tag?_eq_of_bared {t t' : Tree} {i : NodeId} {names : List String}
    (hc : t'.contentOf i = (t.contentOf i).map (bared names)) : t'.tag? i = t.tag? i := by
  rw [tag?_eq, hc, Option.bind_map, tag?_eq]
  rfl

theorem run_tally_removeAttributes {t : Tree} (h : Proper t) (names : List String) {path : String}
    {s : Selector} (hs : Selector.parse path = .ok s) :
    ∃ n t', (Edit.tally (removeAttributes names) (s.select t)).run t = .ok n t' ∧
      Relabelled t t' ∧
      (∀ i, t.Live i → t'.contentOf i =
        (t.contentOf i).map (bared (if selects path t i then names else []))) ∧
      ∀ i, ¬ t.Live i → t'.contentOf i = t.contentOf i := by
  have hfound : ∀ i ∈ s.select t, ∃ n, t.contentOf i = some n ∧ True := by
    intro i hi
    obtain ⟨n, hn⟩ := Option.isSome_iff_exists.1
      (contentOf_isSome_iff.2 (h.lt_of_live (h.forest.mem_select.1 hi).1))
    exact ⟨n, hn, trivial⟩
  obtain ⟨n, t', hrun, hr, hc⟩ := run_tally_relabel (f := removeAttributes names)
    (g := bared names)
    (fun n _ => ⟨trivial, (bared_bared names names n).trans (by simp [bared, Attributes.without])⟩)
    (fun ht id n hn _ => run_removeAttributes ht names hn) h hfound
  refine ⟨n, t', hrun, hr, fun i hl => ?_, fun i hl => ?_⟩
  · have hmem : i ∈ s.select t ↔ selects path t i = true := by
      rw [h.forest.mem_select, and_iff_right hl, selects_of_parse hs]
    rw [hc]
    by_cases hi : selects path t i = true
    · rw [if_pos (hmem.2 hi), if_pos hi]
    · rw [if_neg (mt hmem.1 hi), if_neg hi, funext bared_nil, Option.map_id']
  · rw [hc, if_neg fun hi => hl (h.forest.mem_select.1 hi).1]

theorem run_removeAttributesEach {t : Tree} (h : Proper t) (rows : List (String × List String))
    (hrows : ∀ row ∈ rows, ∃ s, Selector.parse row.1 = .ok s) :
    ∃ n t', (removeAttributesEach rows).run t = .ok n t' ∧ Relabelled t t' ∧
      (∀ i, t.Live i → t'.contentOf i = (t.contentOf i).map (bared (listedFor rows t i))) ∧
      ∀ i, ¬ t.Live i → t'.contentOf i = t.contentOf i := by
  induction rows generalizing t with
  | nil =>
      refine ⟨0, t, rfl, .refl h, fun i _ => ?_, fun i _ => rfl⟩
      rw [listedFor, List.flatMap_nil, funext bared_nil, Option.map_id']
  | cons row rows ih =>
      obtain ⟨s, hs⟩ := hrows row List.mem_cons_self
      obtain ⟨n, t₁, hrun, hr, hlive₁, hdead₁⟩ := run_tally_removeAttributes h row.2 hs
      obtain ⟨m, t₂, hrest, hr', hlive, hdead⟩ :=
        ih hr.proper fun q hq => hrows q (List.mem_cons_of_mem row hq)
      -- The rows to come are held against the tree that this one leaves; it has the same tags.
      have htag (i : NodeId) : t₁.tag? i = t.tag? i := by
        by_cases hl : t.Live i
        · exact tag?_eq_of_bared (hlive₁ i hl)
        · exact tag?_eq_of_contentOf (hdead₁ i hl)
      have hlisted (i : NodeId) : listedFor rows t₁ i = listedFor rows t i := by
        have hsame (path : String) : selects path t₁ i = selects path t i :=
          selects_congr path fun j _ => ⟨htag j, hr.parentOf j⟩
        simp only [listedFor, hsame]
      refine ⟨n + m, t₂, ?_, hr.trans hr', fun i hl => ?_, fun i hl => ?_⟩
      · simp only [removeAttributesEach, EStateM.run_bind, run_select hs, hrun, hrest,
          EStateM.run_pure]
      · rw [hlive i (hr.live_iff.2 hl), hlisted, hlive₁ i hl, Option.map_map]
        exact congrArg (Option.map · _) (funext (bared_bared _ _))
      · rw [hdead i (mt hr.live_iff.1 hl), hdead₁ i hl]

/-- Where each path has one step, the tag alone tells what is listed. -/
theorem map_bared_listedFor {rows : List (String × List String)}
    (hrows : ∀ row ∈ rows, ∃ names, Selector.parse row.1 = .ok ⟨[names]⟩) (t : Tree) (i : NodeId) :
    (t.contentOf i).map (bared (listedFor rows t i)) = (t.contentOf i).map (stripped rows) := by
  refine Option.map_congr fun n hn => ?_
  rw [stripped]
  split
  · next he =>
    have hlisted : listedFor rows t i = dropped rows n.name := by
      rw [listedFor, dropped]
      refine List.flatMap_congr fun row hrow => ?_
      obtain ⟨names, hs⟩ := hrows row hrow
      simp only [selects_of_parse hs, Selector.accepts_one_iff, Selector.flatten_names hs,
        tag?_of_contentOf hn he, Option.some.injEq, exists_eq_left']
    rw [hlisted]
  · next he =>
    have hlisted : listedFor rows t i = [] := by
      rw [listedFor, List.flatMap_eq_nil_iff]
      intro row hrow
      obtain ⟨names, hs⟩ := hrows row hrow
      rw [selects_of_parse hs, if_neg]
      rw [Selector.accepts_one_iff, tag?_eq, hn]
      simp [Node.tag?, he]
    rw [hlisted, bared_nil]

/-- The attribute `old` of the node finds no place under the name `new`: it is the last one, and
there is another one with that name. -/
def Stuck (old new : String) (t : Tree) (id : NodeId) : Prop :=
  ∃ n, t.get? id = some n ∧ n.attributes.names.getLast? = some old ∧ new ∈ n.attributes.names

theorem stuck_iff {old new : String} (hne : old ≠ new) {t : Tree} {id : NodeId} {n : Node}
    (hn : t.contentOf id = some n) :
    Stuck old new t id ↔ n.attributes.rename old new = .misplaced := by
  obtain ⟨node, hnode, rfl⟩ := Option.map_eq_some_iff.1 hn
  simp [Stuck, hnode, Attributes.rename_eq_misplaced_iff hne, Node.content]

/-- A node with the attribute `old` renamed, if it has one and there is a place for it. -/
def withRenamed (old new : String) (n : Node) : Node :=
  { n with attributes := n.attributes.renamedTo old new }

/-- Renaming an attribute goes through unless it is stuck, and leaves the other nodes as they are. -/
theorem run_renameAttribute_or {old new : String} (hne : old ≠ new) {t : Tree} (h : Proper t)
    {id : NodeId} {n : Node} (hn : t.contentOf id = some n) :
    (∃ b t', (Edit.renameAttribute id old new).run t = .ok b t' ∧ ¬ Stuck old new t id ∧
      Relabelled t t' ∧
      ∀ i, t'.contentOf i = if i = id then some (withRenamed old new n) else t.contentOf i) ∨
    Stuck old new t id ∧ (Edit.renameAttribute id old new).run t =
      .error (.misuse (.misplacedAttribute id old)) t := by
  rw [stuck_iff hne hn, withRenamed, Attributes.renamedTo]
  obtain ⟨node, hnode, rfl⟩ := Option.map_eq_some_iff.1 hn
  rw [run_renameAttribute, hnode]
  simp only [Node.content]
  cases hre : node.attributes.rename old new with
  | absent =>
      refine .inl ⟨false, t, rfl, by simp, .refl h, fun i => ?_⟩
      split
      · next hi => exact hi ▸ hn
      · rfl
  | renamed attributes =>
      have hf : Node.Relabels fun n => { n with attributes } :=
        Node.relabels_attributes fun _ => attributes
      exact .inl ⟨true, _, rfl, by simp, .update h hf id, contentOf_update_of hn hf⟩
  | misplaced => exact .inr ⟨rfl, rfl⟩

/-- Renaming an attribute in several nodes goes through unless it is stuck in one of them. -/
theorem run_tally_renameAttribute {old new : String} (hne : old ≠ new) {t : Tree} (h : Proper t)
    {ids : List NodeId} (hd : ids.Nodup) (hids : ∀ id ∈ ids, id < t.nodes.size) :
    (∃ n t', (Edit.tally (fun id => return if ← Edit.renameAttribute id old new then 1 else 0)
        ids).run t = .ok n t' ∧
      (∀ id ∈ ids, ¬ Stuck old new t id) ∧ Relabelled t t' ∧
      ∀ i, t'.contentOf i =
        if i ∈ ids then (t.contentOf i).map (withRenamed old new) else t.contentOf i) ∨
    ∃ id ∈ ids, Stuck old new t id ∧
      ∃ t', (Edit.tally (fun id => return if ← Edit.renameAttribute id old new then 1 else 0)
        ids).run t = .error (.misuse (.misplacedAttribute id old)) t' := by
  induction ids generalizing t with
  | nil => exact .inl ⟨0, t, rfl, by simp, .refl h, by simp⟩
  | cons id ids ih =>
      obtain ⟨hid, hd⟩ := List.nodup_cons.1 hd
      obtain ⟨n, hn⟩ :=
        Option.isSome_iff_exists.1 (contentOf_isSome_iff.2 (hids id List.mem_cons_self))
      simp only [Edit.tally, EStateM.run_bind, EStateM.run_pure]
      rcases run_renameAttribute_or hne h hn with ⟨b, t₁, hrun, hs, hr, hc⟩ | ⟨hs, hrun⟩
      · -- The nodes to come are as they were before the first step.
        have hsame (i : NodeId) (hi : i ∈ ids) : t₁.contentOf i = t.contentOf i :=
          (hc i).trans (if_neg (ne_of_mem_of_not_mem hi hid))
        have hstuck (i : NodeId) (hi : i ∈ ids) : Stuck old new t₁ i ↔ Stuck old new t i := by
          obtain ⟨m, hm⟩ := Option.isSome_iff_exists.1
            (contentOf_isSome_iff.2 (hids i (List.mem_cons_of_mem id hi)))
          rw [stuck_iff hne hm, stuck_iff hne ((hsame i hi).trans hm)]
        rw [hrun]
        simp only
        rcases ih hr.proper hd fun i hi => hr.size ▸ hids i (List.mem_cons_of_mem id hi) with
          ⟨n', t', hrest, hn', hr', hc'⟩ | ⟨i, hi, hs', t', hrest⟩
        · refine .inl ⟨_, t', by rw [hrest],
            List.forall_mem_cons.2 ⟨hs, fun i hi => mt (hstuck i hi).2 (hn' i hi)⟩,
            hr.trans hr', fun i => ?_⟩
          rw [hc', hc]
          by_cases hi : i = id
          · subst hi
            simp [hid, hn]
          · simp [hi]
        · exact .inr ⟨i, List.mem_cons_of_mem id hi, (hstuck i hi).1 hs', t', by rw [hrest]⟩
      · exact .inr ⟨id, List.mem_cons_self, hs, t, by rw [hrun]⟩

def IsCode (t : Tree) (i : NodeId) : Prop :=
  ∃ tag, t.tag? i = some tag ∧ tag ∈ ["screen", "programlisting"]

def isCode (t : Tree) (i : NodeId) : Bool :=
  (t.tag? i).any (["screen", "programlisting"].contains ·)

theorem isCode_iff {t : Tree} {i : NodeId} : isCode t i = true ↔ IsCode t i := by
  rw [isCode, Option.any_eq_true, IsCode]
  simp only [List.contains_iff_mem]

theorem IsCode.ne_of_tag? {t : Tree} {b i : NodeId} {tag : String} (hb : IsCode t b)
    (hi : t.tag? i = some tag) (hn : tag ∉ ["screen", "programlisting"]) : i ≠ b := by
  rintro rfl
  obtain ⟨tag', ht, hm⟩ := hb
  rw [hi, Option.some.injEq] at ht
  exact hn (ht ▸ hm)

theorem IsCode.exists_exchanged {t : Tree} {b : NodeId} (hb : IsCode t b) :
    ∃ tag, t.tag? b = some tag ∧ tag ∈ exchangedTags := by
  have hall : ∀ tag ∈ ["screen", "programlisting"], tag ∈ exchangedTags := by decide
  obtain ⟨tag, ht, hm⟩ := hb
  exact ⟨tag, ht, hall tag hm⟩

theorem isCode_iff_of_contentOf {t : Tree} {i : NodeId} {n : Node} (hn : t.contentOf i = some n) :
    IsCode t i ↔ n.isElement ∧ n.name ∈ ["screen", "programlisting"] := by
  simp only [IsCode, tag?_eq, hn, Option.bind_some, Node.tag?_eq_some_iff]
  exact ⟨fun ⟨_, ⟨he, hname⟩, hm⟩ => ⟨he, hname ▸ hm⟩, fun ⟨he, hm⟩ => ⟨_, ⟨he, rfl⟩, hm⟩⟩

def formatted (n : Node) : Node :=
  among ["screen", "programlisting"] (withRenamed "language" "format") n

structure CodeLanguages (t t' : Tree) : Prop where
  relabelled : Relabelled t t'
  unstuck : ∀ i, t.Live i → IsCode t i → ¬ Stuck "language" "format" t i
  contentOf : ∀ i, t.Live i → t'.contentOf i = (t.contentOf i).map formatted
  rest : ∀ i, ¬ t.Live i → t'.contentOf i = t.contentOf i

section CodeLanguages

variable {t t' : Tree}

theorem CodeLanguages.exists_contentOf (h : CodeLanguages t t') {i : NodeId} {n : Node}
    (hn : t.contentOf i = some n) : ∃ a, t'.contentOf i = some { n with attributes := a } ∧
      (a = n.attributes ∨ a = n.attributes.renamedTo "language" "format") := by
  by_cases hl : t.Live i
  · rw [h.contentOf i hl, hn, Option.map_some, formatted, among]
    split
    · exact ⟨_, rfl, .inr rfl⟩
    · exact ⟨_, rfl, .inl rfl⟩
  · exact ⟨_, (h.rest i hl).trans hn, .inl rfl⟩

theorem CodeLanguages.kept (h : CodeLanguages t t') : Kept [] touchedNames t t' := by
  refine .of_attributes fun i n hn => ?_
  obtain ⟨a, ha, rfl | rfl⟩ := h.exists_contentOf hn
  · exact ⟨_, ha, fun _ _ => rfl⟩
  · refine ⟨_, ha, fun name hname => Attributes.get?_renamedTo_of_ne _ ?_ ?_⟩
    · exact (ne_of_mem_of_not_mem (by decide) hname).symm
    · exact (ne_of_mem_of_not_mem (by decide) hname).symm

theorem CodeLanguages.ungained (h : CodeLanguages t t') : Ungained ["format"] t t' := by
  intro i hi name hname hnone
  obtain ⟨n, hn⟩ := Option.isSome_iff_exists.1 (contentOf_isSome_iff.2 hi)
  rw [attribute?_eq, hn] at hnone
  obtain ⟨a, ha, rfl | rfl⟩ := h.exists_contentOf hn
  · rwa [attribute?_eq, ha]
  · rw [attribute?_eq, ha]
    exact Attributes.get?_renamedTo_eq_none (List.ne_of_not_mem_cons hname) hnone

theorem CodeLanguages.language (h : CodeLanguages t t') {i : NodeId} (hl : t.Live i)
    (hc : IsCode t i) : t'.attribute? i "language" = none := by
  have hi : i < t.nodes.size := lt_size_of_tag? hc.choose_spec.1
  obtain ⟨n, hn⟩ := Option.isSome_iff_exists.1 (contentOf_isSome_iff.2 hi)
  have hplace := mt (stuck_iff (by decide) hn).2 (h.unstuck i hl hc)
  rw [attribute?_eq, h.contentOf i hl, hn, Option.map_some, Option.bind_some, formatted, among,
    if_pos ((isCode_iff_of_contentOf hn).1 hc)]
  exact Attributes.get?_renamedTo_old (by decide) hplace

end CodeLanguages

theorem run_codeLanguage {t : Tree} (h : Proper t) :
    (∃ n t', codeLanguage.apply.run t = .ok n t' ∧ CodeLanguages t t') ∨
    ∃ id, t.Live id ∧ IsCode t id ∧ Stuck "language" "format" t id ∧
      ∃ t', codeLanguage.apply.run t =
        .error (.misuse (.misplacedAttribute id "language")) t' := by
  have hnames : Selector.names codeBlocks = [["screen", "programlisting"]] := by cbv
  have hs := Selector.parse_of_names hnames rfl
  have hmem (i : NodeId) : i ∈ (Selector.mk [["screen", "programlisting"]]).select t ↔
      t.Live i ∧ IsCode t i := by
    rw [h.forest.mem_select, Selector.accepts_one_iff, IsCode]
  have hrun := run_tally_renameAttribute (show "language" ≠ "format" by decide) h
    (h.forest.nodup_select (.mk [["screen", "programlisting"]]))
    fun id hid => h.lt_of_live ((hmem id).1 hid).1
  simp only [codeLanguage, renameAttribute, EStateM.run_bind, run_select hs]
  rcases hrun with ⟨n, t', hrun, hn, hr, hc⟩ | ⟨id, hid, hst, t', hrun⟩
  · refine .inl ⟨n, t', hrun, hr, fun i hl hcode => hn i ((hmem i).2 ⟨hl, hcode⟩), fun i hl => ?_,
      fun i hl => ?_⟩
    · rw [hc]
      cases hi : t.contentOf i with
      | none => simp
      | some n =>
          simp only [hmem, hl, true_and, isCode_iff_of_contentOf hi, formatted, among,
            Option.map_some]
          split <;> rfl
    · rw [hc, if_neg fun hi => hl ((hmem i).1 hi).1]
  · obtain ⟨hl, hc⟩ := (hmem id).1 hid
    exact .inr ⟨id, hl, hc, hst, t', hrun⟩

end BookMarkup.Rule
