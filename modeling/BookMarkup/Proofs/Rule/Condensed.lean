import BookMarkup.Proofs.Document.Reading
import BookMarkup.Proofs.Rule.Paragraph
import BookMarkup.Proofs.Tree.Precedence

/-!
What the rule for attributions makes of a tree, told for all attributions at once. An attribution
within another one has its turn after it, when it is cut off already, so that the outer one is read
with all that is in the inner one, and the inner one with all that was in it.
-/

namespace BookMarkup.Rule

open BookMarkup.Tree

def textOf (t : Tree) (i : NodeId) : String :=
  String.join (((t.subtree i).filter Node.isCharacterData).map Node.value)

/-- What is said in a node: the texts of its children, trimmed, but for the blank ones. -/
def lineParts (t : Tree) (a : NodeId) : List String :=
  (((t.childrenOf a).map (textOf t)).map Text.trim).filter (· ≠ "")

def attributionsOf (t : Tree) : List NodeId :=
  (t.live.map Node.id).filter fun i => t.tag? i == some "attribution"

def telling (t : Tree) (as : List NodeId) : List NodeId :=
  as.filter fun a => !(lineParts t a).isEmpty

/-- The line of an attribution: a new text, if something is said in it. The new ones are numbered in
the order of their attributions. -/
def lineOf (t : Tree) (as : List NodeId) (a : NodeId) : List NodeId :=
  if a ∈ telling t as then [t.numberFor (telling t as) a] else []

/-- The tree `t'` is `t` with one line in each of the attributions, or nothing. What was in them is
cut off. -/
structure Condensed (t : Tree) (as : List NodeId) (t' : Tree) : Prop where
  proper : Proper t'
  root : t'.root = t.root
  size : t'.nodes.size = t.nodes.size + (telling t as).length
  contentOf : ∀ i < t.nodes.size, t'.contentOf i = t.contentOf i
  parentOf : ∀ i < t.nodes.size, t'.parentOf i =
    if (t.parentOf i).any (· ∈ as) then none else t.parentOf i
  childrenOf : ∀ i < t.nodes.size, t'.childrenOf i =
    if i ∈ as then lineOf t as i else t.childrenOf i
  line : ∀ a ∈ telling t as, t'.contentOf (t.numberFor (telling t as) a) = some
    { Node.text (", ".intercalate (lineParts t a)) with id := t.numberFor (telling t as) a }

section Condensed

variable {t u u' : Tree} {as : List NodeId} {a b : NodeId}

theorem Condensed.refl (h : Proper t) : Condensed t [] t where
  proper := h
  root := rfl
  size := rfl
  contentOf _ _ := rfl
  parentOf i _ := by simp
  childrenOf i _ := by simp
  line _ ha := absurd ha List.not_mem_nil

/-! ### What is said -/

theorem textContent_eq (hf : Forest t) {i : NodeId} (hi : i < t.nodes.size) :
    t.textContent i = .ok (textOf t i) :=
  hf.textContent_eq hi

theorem textOf_eq (t : Tree) (i : NodeId) : textOf t i =
    String.join ((((t.subtree i).map Node.content).filter Node.isCharacterData).map Node.value) := by
  rw [textOf, List.filter_map, List.map_map]
  rfl

theorem mem_telling : a ∈ telling t as ↔ a ∈ as ∧ lineParts t a ≠ [] := by
  simp [telling]

theorem telling_append (t : Tree) (as : List NodeId) (a : NodeId) :
    telling t (as ++ [a]) = telling t as ++ if lineParts t a = [] then [] else [a] := by
  rw [telling, List.filter_append, List.filter_singleton, telling]
  cases lineParts t a <;> simp

theorem run_mapM_textContent (hf : Forest t) {ids : List NodeId}
    (hids : ∀ i ∈ ids, i < t.nodes.size) :
    (ids.mapM fun i => Edit.ask (·.textContent i)).run t = .ok (ids.map (textOf t)) t := by
  induction ids with
  | nil => rfl
  | cons i ids ih =>
      have hi := textContent_eq hf (hids i List.mem_cons_self)
      have hrest := ih fun j hj => hids j (List.mem_cons_of_mem i hj)
      simp only [List.mapM_cons, EStateM.run_bind, run_ask, hi, hrest, EStateM.run_pure,
        List.map_cons]

/-! ### One attribution -/

structure Cleared (t : Tree) (a : NodeId) (u : Tree) : Prop where
  proper : Proper u
  root : u.root = t.root
  size : u.nodes.size = t.nodes.size
  contentOf : ∀ i, u.contentOf i = t.contentOf i
  parentOf : ∀ i, u.parentOf i = if (t.parentOf i).any (· ∈ [a]) then none else t.parentOf i
  childrenOf : ∀ i, u.childrenOf i = if i ∈ [a] then [] else t.childrenOf i

theorem run_forM_remove_children (h : Proper t) (a : NodeId) :
    ∃ u, ((t.childrenOf a).forM Edit.remove).run t = .ok () u ∧ Cleared t a u := by
  obtain ⟨u, hrun, hp, hl, hpar⟩ := run_forM_remove h (t.childrenOf a) fun c hc =>
    lt_size_of_parentOf (h.forest.mem_childrenOf.1 hc)
  simp only [h.forest.mem_childrenOf] at hpar
  refine ⟨u, hrun, hp.proper, hp.root_eq h fun r hr => (hl r).2 ⟨⟨r, hr, .refl r⟩, ?_⟩, hp.size,
    hp.contentOf, fun i => ?_, fun i => ?_⟩
  · rintro ⟨c, hc, hw⟩
    obtain rfl := hw.eq_of_parentOf (h.top hr)
    exact h.root_ne_of_parentOf (h.forest.mem_childrenOf.1 hc) hr
  · rw [hpar]
    cases t.parentOf i <;> simp
  · have hkids : u.childrenOf i = (t.childrenOf i).filter fun _ => decide (i ≠ a) :=
      hp.childrenOf_eq_filter h fun c hc => by
        simp only [hpar, hc, Option.some.injEq, decide_eq_true_iff]
        by_cases hi : i = a <;> simp [hi]
    rw [hkids]
    by_cases hi : i = a <;> simp [hi]

theorem Cleared.condensed (hc : Cleared t a u) (hsaid : lineParts t a = []) :
    Condensed t [a] u := by
  have htell : telling t [a] = [] := by simp [telling, hsaid]
  have hline (i : NodeId) : lineOf t [a] i = [] := by simp [lineOf, htell]
  refine ⟨hc.proper, hc.root, by rw [hc.size, htell]; rfl, fun i _ => hc.contentOf i,
    fun i _ => hc.parentOf i, fun i _ => by rw [hc.childrenOf, hline], ?_⟩
  simp [htell]

theorem Cleared.condensed_planted (hc : Cleared t a u) (ha : t.tag? a = some "attribution")
    (hsaid : lineParts t a ≠ []) : Condensed t [a]
      (planted u a (u.childrenOf a).length (Node.text (", ".intercalate (lineParts t a)))) := by
  have hu := hc.proper
  have hau : u.tag? a = some "attribution" := (tag?_eq_of_contentOf (hc.contentOf a)).trans ha
  have has := lt_size_of_tag? hau
  have hne {i : NodeId} (hi : i < t.nodes.size) : i ≠ u.nodes.size := Nat.ne_of_lt (hc.size ▸ hi)
  have htell : telling t [a] = [a] := by simp [telling, hsaid]
  have hnumber : t.numberFor [a] a = u.nodes.size := (numberFor_singleton t a).trans hc.size.symm
  have hline : lineOf t [a] a = [u.nodes.size] := by simp [lineOf, htell, hnumber]
  obtain ⟨hproper, hroot⟩ := Proper.planted hu (u.childrenOf a).length
    (Node.text (", ".intercalate (lineParts t a))) hau
  refine ⟨hproper, hroot.trans hc.root, ?_, fun i hi => ?_, fun i hi => ?_, fun i hi => ?_,
    fun b hb => ?_⟩
  · rw [size_planted, hc.size, htell]
    rfl
  · rw [contentOf_planted hu has, if_neg (hne hi), hc.contentOf]
  · rw [parentOf_planted hu has, if_neg (hne hi), hc.parentOf]
  · rw [childrenOf_planted hu has]
    by_cases hia : i = a
    · subst hia
      have hnil : u.childrenOf i = [] := by rw [hc.childrenOf, if_pos (List.mem_singleton_self i)]
      rw [if_pos rfl, if_pos (List.mem_singleton_self i), hline, hnil]
      rfl
    · rw [if_neg hia, hc.childrenOf, if_neg (by simpa using hia), if_neg (by simpa using hia)]
  · rw [htell] at hb ⊢
    rw [List.mem_singleton.1 hb, hnumber, contentOf_planted hu has, if_pos rfl]
    rfl

theorem run_flattenAttribution (h : Proper t) (ha : t.tag? a = some "attribution") :
    ∃ u, (flattenAttribution a).run t = .ok 1 u ∧ Condensed t [a] u := by
  have htexts := run_mapM_textContent h.forest fun c hc =>
    lt_size_of_parentOf (h.forest.mem_childrenOf (p := a).1 hc)
  obtain ⟨u, hrun, hc⟩ := run_forM_remove_children h a
  have hparts : (((t.childrenOf a).map (textOf t)).map Text.trim).filter (· ≠ "") =
    lineParts t a := rfl
  have hau : u.tag? a = some "attribution" := (tag?_eq_of_contentOf (hc.contentOf a)).trans ha
  simp only [flattenAttribution, EStateM.run_bind, run_childIds (lt_size_of_tag? ha), htexts, hrun,
    hparts, List.isEmpty_iff]
  by_cases hsaid : lineParts t a = []
  · exact ⟨u, by rw [if_pos hsaid]; rfl, hc.condensed hsaid⟩
  · have happend := run_appendChild_new hc.proper
      (Node.text (", ".intercalate (lineParts t a))) hau
    refine ⟨_, ?_, hc.condensed_planted ha hsaid⟩
    rw [if_neg hsaid]
    simp only [EStateM.run_bind, run_create, happend, EStateM.run_pure]

/-! ### One more attribution -/

theorem telling_singleton (t : Tree) (a : NodeId) :
    telling t [a] = if lineParts t a = [] then [] else [a] :=
  telling_append t [] a

theorem numberFor_telling_append (hb : b ∈ telling t as) (a : NodeId) :
    t.numberFor (telling t (as ++ [a])) b = t.numberFor (telling t as) b := by
  rw [telling_append]
  split
  · rw [List.append_nil]
  · exact numberFor_append_of_mem t hb a

theorem lineOf_append_of_mem (hb : b ∈ as) (a : NodeId) :
    lineOf t (as ++ [a]) b = lineOf t as b := by
  rw [lineOf, lineOf]
  by_cases hm : b ∈ telling t as
  · have hm' : b ∈ telling t (as ++ [a]) :=
      mem_telling.2 ⟨List.mem_append_left _ hb, (mem_telling.1 hm).2⟩
    rw [if_pos hm, if_pos hm', numberFor_telling_append hm]
  · have hm' : b ∉ telling t (as ++ [a]) := fun h =>
      hm (mem_telling.2 ⟨hb, (mem_telling.1 h).2⟩)
    rw [if_neg hm, if_neg hm']

section Step

variable (h : Condensed t as u) (ht : Proper t) (ha : a < t.nodes.size)
  (hinner : ∀ b ∈ as, ¬ Within t b a)

include h ht ha hinner

/-- An attribution with none within it that has had its turn still says what it said. -/
theorem Condensed.lineParts_eq : lineParts u a = lineParts t a := by
  have hkept {j : NodeId} (hj : Within t j a) (hjs : j < t.nodes.size) :
      u.contentOf j = t.contentOf j ∧ u.childrenOf j = t.childrenOf j :=
    ⟨h.contentOf j hjs, by rw [h.childrenOf j hjs, if_neg fun hm => hinner j hm hj]⟩
  have htexts : (t.childrenOf a).map (textOf u) = (t.childrenOf a).map (textOf t) := by
    refine List.map_congr_left fun c hc => ?_
    have hca := ht.forest.mem_childrenOf.1 hc
    have hcs := lt_size_of_parentOf hca
    rw [textOf_eq, textOf_eq, ht.forest.map_subtree h.proper.forest Node.content hcs fun j hj => ?_]
    refine hkept (hj.parent hca) ?_
    cases hj with
    | refl => exact hcs
    | step hp _ => exact lt_size_of_parentOf hp
  rw [lineParts, lineParts, (hkept (.refl a) ha).2, htexts]

theorem Condensed.lineOf_self (haa : a ∉ as) : lineOf t (as ++ [a]) a = lineOf u [a] a ∧
    (lineParts t a ≠ [] → t.numberFor (telling t (as ++ [a])) a = u.nodes.size) := by
  have hparts := h.lineParts_eq ht ha hinner
  have hnumber (hsaid : lineParts t a ≠ []) :
      t.numberFor (telling t (as ++ [a])) a = u.nodes.size := by
    rw [telling_append, if_neg hsaid, numberFor_append_self t fun hm => haa (mem_telling.1 hm).1,
      h.size]
  refine ⟨?_, hnumber⟩
  rw [lineOf, lineOf]
  by_cases hsaid : lineParts t a = []
  · rw [if_neg fun hm => (mem_telling.1 hm).2 hsaid,
      if_neg fun hm => (mem_telling.1 hm).2 (hparts.trans hsaid)]
  · rw [if_pos (mem_telling.2 ⟨by simp, hsaid⟩),
      if_pos (mem_telling.2 ⟨by simp, fun hu => hsaid (hparts.symm.trans hu)⟩), hnumber hsaid,
      telling_singleton, hparts, if_neg hsaid, numberFor_singleton]

theorem Condensed.step (haa : a ∉ as) (hs : Condensed u [a] u') : Condensed t (as ++ [a]) u' := by
  have hparts := h.lineParts_eq ht ha hinner
  obtain ⟨hline, hnumber⟩ := h.lineOf_self ht ha hinner haa
  have hlt {i : NodeId} (hi : i < t.nodes.size) : i < u.nodes.size :=
    h.size ▸ Nat.lt_add_right _ hi
  refine ⟨hs.proper, hs.root.trans h.root, ?_, fun i hi => ?_, fun i hi => ?_, fun i hi => ?_,
    fun b hb => ?_⟩
  · rw [hs.size, h.size, telling_singleton, hparts, telling_append, List.length_append,
      Nat.add_assoc]
  · rw [hs.contentOf i (hlt hi), h.contentOf i hi]
  · rw [hs.parentOf i (hlt hi), h.parentOf i hi]
    cases hp : t.parentOf i with
    | none => rfl
    | some p => by_cases hm : p ∈ as <;> simp [hm]
  · rw [hs.childrenOf i (hlt hi), h.childrenOf i hi]
    by_cases hia : i = a
    · rw [if_pos (by simp [hia]), if_pos (by simp [hia]), hia, hline]
    · by_cases hm : i ∈ as
      · rw [if_neg (by simpa using hia), if_pos hm, if_pos (by simp [hm]), lineOf_append_of_mem hm]
      · rw [if_neg (by simpa using hia), if_neg hm, if_neg (by simp [hm, hia])]
  · obtain ⟨hb, hsaid⟩ := mem_telling.1 hb
    rcases List.mem_append.1 hb with hb | hb
    · have hb' : b ∈ telling t as := mem_telling.2 ⟨hb, hsaid⟩
      have hlt : t.numberFor (telling t as) b < u.nodes.size := h.size ▸ numberFor_lt t hb'
      rw [numberFor_telling_append hb', hs.contentOf _ hlt, h.line b hb']
    · obtain rfl := List.mem_singleton.1 hb
      have htell : telling u [b] = [b] := by rw [telling_singleton, hparts, if_neg hsaid]
      have hnew : u.numberFor (telling u [b]) b = u.nodes.size := by
        rw [htell, numberFor_singleton]
      have hlast := hs.line b (by rw [htell]; exact List.mem_singleton_self b)
      rw [hnew, hparts] at hlast
      rw [hnumber hsaid, hlast]

end Step

/-! ### The loop -/

theorem mem_attributionsOf (ht : Proper t) :
    a ∈ attributionsOf t ↔ t.Live a ∧ t.tag? a = some "attribution" := by
  rw [attributionsOf, List.mem_filter, ht.forest.mem_map_live, beq_iff_eq]

theorem attributionsOf_eq (t : Tree) :
    attributionsOf t = (Selector.mk [["attribution"]]).select t := by
  rw [select_eq_filter, attributionsOf]
  refine List.filter_congr fun a _ => ?_
  rw [Bool.eq_iff_iff, Selector.accepts_one_iff, beq_iff_eq]
  simp

theorem exists_condensed (h : Proper t) :
    ∃ t', flattenAttributions.apply.run t = .ok (attributionsOf t).length t' ∧
      Condensed t (attributionsOf t) t' := by
  have hn : Selector.names "attribution" = [["attribution"]] := by cbv
  have hcount : (((Selector.mk [["attribution"]]).select t).map fun _ => 1).sum =
      (attributionsOf t).length := by
    rw [attributionsOf_eq, List.map_const', List.sum_replicate_nat, Nat.mul_one]
  rw [← hcount, attributionsOf_eq]
  refine run_select_tally_prefix (Selector.parse_of_names hn rfl) h.forest flattenAttribution
    (fun _ => 1) (Condensed t) (fun done a rest u hids had hu => ?_) (.refl h)
  have hmem {b : NodeId} (hb : b ∈ done ++ a :: rest) : t.Live b ∧ t.tag? b = some "attribution" :=
    (mem_attributionsOf h).1 (attributionsOf_eq t ▸ hids ▸ hb)
  obtain ⟨hl, htag⟩ := hmem (List.mem_append_right done List.mem_cons_self)
  have has := lt_size_of_tag? htag
  have hau : u.tag? a = some "attribution" :=
    (tag?_eq_of_contentOf (hu.contentOf a has)).trans htag
  -- What is within an attribution comes after it.
  have hinner : ∀ b ∈ done, ¬ Within t b a := by
    intro b hb hw
    rcases within_iff.1 hw with rfl | hbelow
    · exact had hb
    · exact (h.forest.precedes_of_below hl hbelow).notMem_done h.forest hids hb
  obtain ⟨u', hrun, hs⟩ := run_flattenAttribution hu.proper hau
  exact ⟨u', hrun, hu.step h has hinner had hs⟩

/-! ### What is left -/

theorem Condensed.parentOf_iff (h : Condensed t as u) {i p : NodeId} (hi : i < t.nodes.size) :
    u.parentOf i = some p ↔ t.parentOf i = some p ∧ p ∉ as := by
  rw [h.parentOf i hi]
  cases t.parentOf i with
  | none => simp
  | some q =>
      by_cases hq : q ∈ as
      · simp only [Option.any_some, hq, decide_true, if_true, reduceCtorEq, Option.some.injEq,
          false_iff, not_and, not_not]
        exact fun hqp => hqp ▸ hq
      · simp only [Option.any_some, hq, decide_false, Bool.false_eq_true, if_false,
          Option.some.injEq, iff_self_and]
        exact fun hqp => hqp ▸ hq

theorem Condensed.mem_childrenOf (h : Condensed t as u) {c : NodeId} (ha : a ∈ as)
    (has : a < t.nodes.size) :
    u.parentOf c = some a ↔ a ∈ telling t as ∧ c = t.numberFor (telling t as) a := by
  rw [← h.proper.forest.mem_childrenOf, h.childrenOf a has, if_pos ha, lineOf]
  split
  · next hm => simp [hm]
  · next hm => simp [hm]

variable (h : Condensed t (attributionsOf t) u) (ht : Proper t)

include h ht

theorem Condensed.live_iff {i : NodeId} (hi : i < t.nodes.size) : u.Live i ↔
    t.Live i ∧ ¬ ∃ a, t.tag? a = some "attribution" ∧ Below t i a := by
  constructor
  · rintro ⟨r, hr, hw⟩
    rw [h.root] at hr
    induction hw with
    | refl r =>
        refine ⟨⟨r, hr, .refl r⟩, ?_⟩
        rintro ⟨a, -, hb⟩
        obtain ⟨p, hp, -⟩ := below_iff.1 hb
        exact ht.root_ne_of_parentOf hp hr
    | @step i p r hp _ ih =>
        obtain ⟨hip, hpn⟩ := (h.parentOf_iff hi).1 hp
        obtain ⟨hl, hnone⟩ := ih (ht.forest.parent_lt hip) hr
        refine ⟨hl.child hip, ?_⟩
        rintro ⟨a, hat, hb⟩
        obtain ⟨q, hq, hqa⟩ := below_iff.1 hb
        obtain rfl := Option.some.inj (hip.symm.trans hq)
        rcases within_iff.1 hqa with rfl | hb
        · exact hpn ((mem_attributionsOf ht).2 ⟨hl, hat⟩)
        · exact hnone ⟨a, hat, hb⟩
  · rintro ⟨⟨r, hr, hw⟩, hnone⟩
    induction hw with
    | refl r => exact ⟨r, h.root.trans hr, .refl r⟩
    | @step i p r hp _ ih =>
        have hpl : u.Live p := ih (ht.forest.parent_lt hp) (fun ⟨a, hat, hb⟩ =>
          hnone ⟨a, hat, below_iff.2 ⟨p, hp, hb.within⟩⟩) hr
        refine hpl.child ((h.parentOf_iff hi).2 ⟨hp, fun hm => hnone ⟨p, ?_, ?_⟩⟩)
        · exact ((mem_attributionsOf ht).1 hm).2
        · exact below_iff.2 ⟨p, hp, .refl p⟩

theorem Condensed.parentOf_of_live {i : NodeId} (hi : i < t.nodes.size) (hl : u.Live i) :
    u.parentOf i = t.parentOf i := by
  cases hp : t.parentOf i with
  | none => rw [h.parentOf i hi, hp]; rfl
  | some p =>
      refine (h.parentOf_iff hi).2 ⟨hp, fun hm => ((h.live_iff ht hi).1 hl).2 ⟨p, ?_, ?_⟩⟩
      · exact ((mem_attributionsOf ht).1 hm).2
      · exact below_iff.2 ⟨p, hp, .refl p⟩

theorem Condensed.new {i : NodeId} (hi : t.nodes.size ≤ i) (hlt : i < u.nodes.size) :
    IsLine u i ∧ ∃ a, u.parentOf i = some a ∧ u.tag? a = some "attribution" := by
  have hd : (telling t (attributionsOf t)).Nodup := (ht.forest.nodup_live.filter _).filter _
  obtain ⟨a, ha, rfl⟩ := exists_numberFor t hd hi (h.size ▸ hlt)
  obtain ⟨hm, hsaid⟩ := mem_telling.1 ha
  have htag := ((mem_attributionsOf ht).1 hm).2
  have has := lt_size_of_tag? htag
  exact ⟨⟨_, h.line a ha, Text.trimmed_intercalate_trim ", " hsaid⟩, a,
    (h.mem_childrenOf hm has).2 ⟨ha, rfl⟩, (tag?_eq_of_contentOf (h.contentOf a has)).trans htag⟩

theorem Condensed.attributions : Attributions t u := by
  have hparent (i : NodeId) (hi : i < t.nodes.size) (hl : u.Live i) :=
    h.parentOf_of_live ht hi hl
  have hthin : Thinned t u := by
    refine ⟨h.proper, fun r hr => h.root ▸ hr, .of_contentOf fun i n hn => ?_, fun i tag hi htag => ?_,
      fun i hi hl => ((h.live_iff ht hi).1 hl).1, fun S _ i hi hl => ?_⟩
    · exact (h.contentOf i (contentOf_isSome_iff.1 (by simp [hn]))).trans hn
    · obtain ⟨⟨value, hv, -⟩, -⟩ := h.new ht hi (lt_size_of_tag? htag)
      simp [tag?_eq, hv, Node.tag?, Node.text, Node.isElement] at htag
    · simp only [Inside, within_iff_of_live ht h.proper hparent hi hl]
  refine ⟨⟨hthin, h.contentOf, fun i hi hl _ => hparent i hi hl⟩, fun i hi => h.live_iff ht hi,
    fun i hi hl => h.new ht hi (h.proper.lt_of_live hl), fun a hl htag c hc => ?_⟩
  have has := lt_size_of_tag? htag
  have hm := (mem_attributionsOf ht).2 ⟨hl, htag⟩
  obtain ⟨ha, rfl⟩ := (h.mem_childrenOf hm has).1 hc
  exact ⟨⟨_, h.line a ha, rfl⟩, fun d hd => ((h.mem_childrenOf hm has).1 hd).2⟩

omit h in
theorem run_flattenAttributions :
    ∃ n t', flattenAttributions.apply.run t = .ok n t' ∧ Attributions t t' := by
  obtain ⟨t', hrun, ht'⟩ := exists_condensed ht
  exact ⟨_, t', hrun, ht'.attributions ht⟩

end Condensed

/-- The rule for attributions on a document: each holds one line of what was said in it, or nothing
where that is blank. What was below an attribution is lost, and all else is as it was. -/
theorem flattenAttributions_of_parse {o : Reader.Options} {text : String} {d : Document}
    (h : Document.parse o text = .ok d) :
    ∃ t', flattenAttributions.apply.run d.tree = .ok (attributionsOf d.tree).length t' ∧
      Condensed d.tree (attributionsOf d.tree) t' ∧
      ∀ i < d.tree.nodes.size, t'.Live i ↔
        d.tree.Live i ∧ ¬ ∃ a, d.tree.tag? a = some "attribution" ∧ Below d.tree i a := by
  have hp := Document.proper_of_parse h
  obtain ⟨t', hrun, ht'⟩ := exists_condensed hp
  exact ⟨t', hrun, ht', fun i hi => ht'.live_iff hp hi⟩

/-- An attribution in an attribution: what is said in it is said once in the outer line. -/
theorem flattenAttributions_of_nested : ∃ d t', Document.parse {}
      "<b><attribution>x<c> y <attribution>z</attribution></c> </attribution></b>" = .ok d ∧
    flattenAttributions.apply.run d.tree = .ok 2 t' ∧
    Condensed d.tree (attributionsOf d.tree) t' ∧
    (attributionsOf d.tree).map (lineParts d.tree) = [["x", "y z"], ["z"]] := by
  obtain ⟨d, hparse, hcount, hparts⟩ : ∃ d, Document.parse {}
      "<b><attribution>x<c> y <attribution>z</attribution></c> </attribution></b>" = .ok d ∧
      (attributionsOf d.tree).length = 2 ∧
      (attributionsOf d.tree).map (lineParts d.tree) = [["x", "y z"], ["z"]] :=
    exists_ok_of_any (by decide +kernel)
  obtain ⟨t', hrun, ht', -⟩ := flattenAttributions_of_parse hparse
  exact ⟨d, t', hparse, hcount ▸ hrun, ht', hparts⟩

end BookMarkup.Rule
