import BookMarkup.Proofs.Rule.Announced
import BookMarkup.Proofs.Rule.Attached
import BookMarkup.Proofs.Rule.Condensed
import BookMarkup.Proofs.Rule.Encased
import BookMarkup.Proofs.Rule.FormalListing
import BookMarkup.Proofs.Rule.Opened
import BookMarkup.Proofs.Rule.Relieved
import BookMarkup.Rule.Book

/-!
A run of all rules on one proper tree. Two of the thirteen rules can fail, so the run falls into three
stretches that always go through: the rules before the first of the two, those between them, and the
one after the second. Each stretch is summed up by what it keeps, what it loses and what it makes.
-/

namespace BookMarkup.Rule

open BookMarkup.Tree

theorem runAll_append (rules later : List Rule) (t : Tree) :
    (runAll (rules ++ later)).run t =
      match (runAll rules).run t with
      | .ok n t' =>
        match (runAll later).run t' with
        | .ok m t'' => .ok (n + m) t''
        | .error f t'' => .error f t''
      | .error f t' => .error f t' := by
  induction rules generalizing t with
  | nil =>
      have hnil : (runAll []).run t = .ok 0 t := rfl
      rw [List.nil_append, hnil]
      cases h : (runAll later).run t <;> simp [h]
  | cons r rules ih =>
      rw [List.cons_append]
      cases hr : r.apply.run t with
      | error f t' => simp only [runAll_cons_of_error hr]
      | ok n t' =>
          rw [runAll_cons_of_ok hr, runAll_cons_of_ok hr, ih]
          cases (runAll rules).run t' with
          | error f t₁ => rfl
          | ok m t₁ => cases h : (runAll later).run t₁ <;> simp [h, Nat.add_assoc]

/-! ### Up to the languages of code blocks -/

/-- The tree `t₁` is `t` with its elements renamed, and `t₃` what the next two rules make of `t₁`. -/
structure Opening (t t₁ t₃ : Tree) : Prop where
  relabelled : Relabelled t t₁
  renamed : ∀ i, t.Live i → t₁.contentOf i = (t.contentOf i).map (retagged bookTag)
  thinned : Thinned t₁ t₃
  built : Built t₁ t₃
  kept : Kept [] touchedNames t₁ t₃
  live : ∀ i < t₁.nodes.size, t₃.Live i ↔ t₁.Live i ∧ ¬ Inside t₁ (Unwanted t₁) i
  below : ∀ p < t₁.nodes.size, t₃.Live p →
    (∀ tag ∈ ["bookinfo", "mediaobject", "part", "partintro"], t₁.tag? p ≠ some tag) →
    ∀ c, t₃.parentOf c = some p ↔ t₁.parentOf c = some p
  label : ∀ i < t₁.nodes.size, t₃.Live i →
    t₃.contentOf i = (t₁.contentOf i).map (stripped prunedAttributes)

theorem run_opening {t : Tree} (h : Proper t) :
    ∃ n₁ t₁ n₃ t₃, (runAll (bookRules.take 1)).run t = .ok n₁ t₁ ∧
      (runAll (bookRules.take 3)).run t = .ok n₃ t₃ ∧ Opening t t₁ t₃ ∧ Opened t₁ t₃ := by
  obtain ⟨n₁, t₁, hrun₁, hr₁, hlabel, _⟩ := run_renameElements h
  obtain ⟨n₂, u, t₂, hrun₂, hp, hlive, hr₂, hk₂, hst₂, hlabel₂⟩ := run_pruneMetadata hr₁.proper
  obtain ⟨n₃, t₃, hrun₃, hr₃, hs₃, hc₃, htidy₃, hintro₃, hnew₃⟩ := run_partIntro hr₂.proper
  have hu := (hr₂.rearranged hp.proper hk₂.mono).trans hr₃
  have hku : Kept [] touchedNames t₁ u := .of_contentOf fun i n hn => (hp.contentOf i).trans hn
  have hlt {i : NodeId} (hi : i < t₁.nodes.size) : i < t₂.nodes.size := (hku.trans hk₂).lt hi
  have hlive₂ {i : NodeId} (hi : i < t₁.nodes.size) : t₃.Live i ↔ u.Live i :=
    hu.live_iff hp.proper (hp.size ▸ hi)
  refine ⟨n₁ + 0, t₁, n₁ + (n₂ + (n₃ + 0)), t₃, ?_, ?_, ⟨hr₁, hlabel,
    (hp.thinned hr₁.proper).trans (hu.thinned hp.proper), ?_,
    (hku.trans hk₂).trans hs₃.kept, ?_, ?_, fun i hi hl => ?_⟩,
    .of_stretch hp hlive hr₂ hk₂ hst₂ hr₃ hc₃ htidy₃ hintro₃ hnew₃⟩
  · rw [bookRules, List.take_succ_cons, List.take_zero, runAll_cons_of_ok hrun₁]
    rfl
  · simp only [bookRules, List.take_succ_cons, List.take_zero]
    rw [runAll_cons_of_ok hrun₁, runAll_cons_of_ok hrun₂, runAll_cons_of_ok hrun₃]
    rfl
  · exact fun i hi => hu.built i (hp.size ▸ hi)
  · intro i hi
    rw [hlive₂ hi, hlive]
  · intro p hps hpl hn c
    have hp₂ : t₂.tag? p = t₁.tag? p := (hku.trans hk₂).tag?_eq hps
    rw [hs₃.below p (hlt hps) (fun tag ht => by
        rw [hp₂]
        simp only [introTags, List.mem_cons, List.not_mem_nil, or_false] at ht
        exact hn tag (by simp [ht])) c,
      hr₂.parentOf, hp.parentOf_iff hlive ((hlive₂ hps).1 hpl) fun tag ht => ?_]
    simp only [List.mem_cons, List.not_mem_nil, or_false] at ht
    exact hn tag (by rcases ht with rfl | rfl <;> simp)
  · rw [hc₃.contentOf i (hlt hi), hlabel₂ i ((hlive₂ hi).1 hl), hp.contentOf]

/-! ### From the languages of code blocks to the labels of references -/

theorem Thinned.inside_tag_iff {t t' : Tree} (h : Thinned t t') {tag : String}
    (hl : isLandmark tag) (hm : tag ∉ madeTags) (Q : NodeId → Prop) {i : NodeId}
    (hi : i < t.nodes.size) (hlive : t'.Live i) :
    Inside t' (fun a => t'.tag? a = some tag ∧ Q a) i ↔
      Inside t (fun a => t.tag? a = some tag ∧ Q a) i := by
  have htag (a : NodeId) : t'.tag? a = some tag ↔ t.tag? a = some tag :=
    h.made.tag?_iff h.kept (not_mem_exchangedTags hl) hm
  simp only [htag]
  exact h.inside _ (fun a ha => ⟨lt_size_of_tag? ha.1, .inr ⟨tag, ha.1, hl⟩⟩) i hi hlive

theorem below_iff_within {t : Tree} (hf : Forest t) {i a : NodeId} :
    Below t i a ↔ Within t i a ∧ a ≠ i := by
  rw [within_iff]
  constructor
  · intro h
    refine ⟨.inr h, ?_⟩
    rintro rfl
    exact hf.acyclic a h
  · rintro ⟨rfl | h, hne⟩
    · exact absurd rfl hne
    · exact h

def InAttribution (t : Tree) (i : NodeId) : Prop :=
  ∃ a, t.tag? a = some "attribution" ∧ Below t i a

theorem Thinned.inAttribution_iff {t t' : Tree} (h : Thinned t t') (ht : Proper t) {i : NodeId}
    (hi : i < t.nodes.size) (hlive : t'.Live i) : InAttribution t' i ↔ InAttribution t i := by
  have hin := h.inside_tag_iff (show isLandmark "attribution" by decide) (by decide) (· ≠ i) hi
    hlive
  have hiff (u : Tree) (hu : Proper u) : InAttribution u i ↔
      Inside u (fun a => u.tag? a = some "attribution" ∧ a ≠ i) i := by
    refine exists_congr fun a => ?_
    rw [below_iff_within hu.forest, and_assoc, and_comm (a := a ≠ i)]
  rw [hiff t' h.proper, hiff t ht, hin]

/-- The tree `t'` is what the rules for listings, parts, cells and quotes make of `t`. -/
structure Restructured (t t' : Tree) : Prop where
  thinned : Thinned t t'
  live : ∀ i < t.nodes.size, t'.Live i ↔
    t.Live i ∧ ¬ Emptied t (IsCode t) i ∧ ¬ InAttribution t i
  new : ∀ i, t.nodes.size ≤ i → t'.Live i → (∃ tag ∈ madeTags, t'.tag? i = some tag) ∨
    IsText t' i ∧ ∃ a, t'.parentOf i = some a ∧ t'.tag? a = some "attribution"

theorem run_restructuring {t : Tree} (h : Proper t) :
    ∃ n t', (runAll ((bookRules.drop 4).take 7)).run t = .ok n t' ∧ Restructured t t' := by
  obtain ⟨n₅, t₅, hrun₅, hr₅, hl₅, ⟨hs₅, _⟩⟩ := run_formalListings h
  obtain ⟨n₆, t₆, hrun₆, hr₆, _⟩ := run_informalListings hr₅.proper
  obtain ⟨n₇, t₇, hrun₇, hr₇, _⟩ := run_hoistAppendices hr₆.proper
  obtain ⟨n₈, t₈, hrun₈, hr₈, _⟩ := run_attachCalloutLists hr₇.proper
  obtain ⟨n₉, t₉, hrun₉, hr₉, _⟩ := run_wrapHeaderCells hr₈.proper
  obtain ⟨n₁₀, t₁₀, hrun₁₀, ⟨hr₁₀, _, _⟩, hl₁₀, hnew₁₀, _⟩ := run_flattenAttributions hr₉.proper
  obtain ⟨n₁₁, t₁₁, hrun₁₁, hq₁₁⟩ := run_wrapBlockquotes hr₁₀.proper
  have hr₁₁ := hq₁₁.rearranged
  have hr : Rearranged t₅ t₉ := ((hr₆.trans hr₇).trans hr₈).trans hr₉
  have hthin : Thinned t t₉ := hr₅.trans (hr.thinned hr₅.proper)
  have hlast : Thinned t₁₀ t₁₁ := hr₁₁.thinned hr₁₀.proper
  refine ⟨n₅ + (n₆ + (n₇ + (n₈ + (n₉ + (n₁₀ + (n₁₁ + 0)))))), t₁₁, ?_,
    (hthin.trans hr₁₀).trans hlast, fun i hi => ?_, fun i hi hl => ?_⟩
  · simp only [bookRules, List.drop_succ_cons, List.drop_zero, List.take_succ_cons,
      List.take_zero]
    rw [runAll_cons_of_ok hrun₅, runAll_cons_of_ok hrun₆, runAll_cons_of_ok hrun₇,
      runAll_cons_of_ok hrun₈, runAll_cons_of_ok hrun₉, runAll_cons_of_ok hrun₁₀,
      runAll_cons_of_ok hrun₁₁]
    rfl
  · -- Nodes are dropped by the rules for formal listings and for attributions only.
    have hi₉ := hthin.kept.lt hi
    have hi₅ : i < t₅.nodes.size := hs₅ ▸ hi
    rw [hr₁₁.live_iff hr₁₀.proper (hr₁₀.kept.lt hi₉), hl₁₀ i hi₉, ← and_assoc, ← hl₅ i,
      ← hr.live_iff hr₅.proper hi₅]
    exact and_congr_right fun hl => not_congr (hthin.inAttribution_iff h hi hl)
  · by_cases hi₁₀ : i < t₁₀.nodes.size
    · have hl₁₀ := (hr₁₁.live_iff hr₁₀.proper hi₁₀).1 hl
      by_cases hi₉ : i < t₉.nodes.size
      · obtain ⟨tag, hm, ht⟩ := hr.built i (hs₅ ▸ hi) hi₉
        have hkept := hr₁₀.kept.trans hr₁₁.kept
        exact .inl ⟨tag, hm,
          (hkept.tag?_iff hi₉ (not_mem_exchangedTags_of_made hm)).2 ht⟩
      · obtain ⟨hline, a, ha, htag⟩ := hnew₁₀ i (Nat.le_of_not_lt hi₉) hl₁₀
        have htext := hline.isText
        have hne : t₁₀.tag? i ≠ some "blockquote" := by
          obtain ⟨n, hn, hk⟩ := htext
          simp [tag?_eq, hn, Node.tag?, Node.isElement, hk]
        exact .inr ⟨htext.kept hr₁₁.kept, a, (hq₁₁.movesOnly.parentOf i hi₁₀ hl hne).trans ha,
          (hr₁₁.kept.tag?_iff (lt_size_of_tag? htag) (by decide)).2 htag⟩
    · exact .inl (hr₁₁.built i (Nat.le_of_not_lt hi₁₀) (hr₁₁.proper.lt_of_live hl))

/-! ### All rules -/

/-- The language of some code block cannot become its format. -/
def Blocked (t : Tree) : Prop :=
  ∃ id, t.Live id ∧ IsCode t id ∧ Stuck "language" "format" t id

/-- How a run of all rules on `t` can end, where `t₁` and `t₃` are what the first rule and the first
three rules leave. -/
inductive BookRulesOutcome (t t₁ t₃ : Tree) : EStateM.Result Failure Tree Nat → Prop
  | blocked {id : NodeId} {t' : Tree} (hb : Blocked t₃) :
      BookRulesOutcome t t₁ t₃
        (.error ⟨"code-language", .misuse (.misplacedAttribute id "language")⟩ t')
  | unplaced {r : NodeId} {t' : Tree} (hb : ¬ Blocked t₃) (hr : RootReference t r) :
      BookRulesOutcome t t₁ t₃ (.error ⟨"label-cross-references", .fault (.detached r)⟩ t')
  | done {n : Nat} {t₄ t₁₁ t₁₂ t' : Tree} (hb : ¬ Blocked t₃) (hr : ∀ r, ¬ RootReference t r)
      (relabelled : Relabelled t₃ t₄) (kept : Kept [] touchedNames t₃ t₄)
      (restructured : Restructured t₄ t₁₁) (labelled : Labelled t₁₁ t₁₂) (pruned : Pruned t₁₂ t')
      (live : ∀ i, t'.Live i ↔
        t₁₂.Live i ∧ ¬ Inside t₁₂ (fun c => t₁₂.tag? c = some "colspec") i) :
      BookRulesOutcome t t₁ t₃ (.ok n t')

section BookRulesOutcome

variable {t t₁ t₃ t₄ t₁₁ : Tree}

theorem Opening.tag?_eq (h : Opening t t₁ t₃) {i : NodeId} (hl : t.Live i) :
    t₁.tag? i = (t.tag? i).map bookTag := by
  rw [Tree.tag?_eq, h.renamed i hl, Tree.tag?_eq]
  cases t.contentOf i with
  | none => rfl
  | some n => exact tag?_retagged bookTag n

theorem Opening.attribute?_eq (h : Opening t t₁ t₃) {i : NodeId} (hl : t.Live i)
    (name : String) : t₁.attribute? i name = t.attribute? i name := by
  rw [Tree.attribute?_eq, h.renamed i hl, Tree.attribute?_eq]
  cases t.contentOf i with
  | none => rfl
  | some n =>
      rw [Option.map_some, Option.bind_some, Option.bind_some, retagged]
      split <;> rfl

/-- The root has no parent, so that it is not unwanted. -/
theorem Opening.root_eq (h : Opening t t₁ t₃) {r : NodeId}
    (hr : t.root = some r) : t₃.root = some r := by
  have hr₁ : t₁.root = some r := h.relabelled.root.trans hr
  have htop : t₁.parentOf r = none := h.relabelled.proper.top hr₁
  refine h.thinned.root_eq hr₁ ((h.live r (h.relabelled.proper.forest.root_lt hr₁)).2
    ⟨⟨r, hr₁, .refl r⟩, ?_⟩)
  rintro ⟨a, ⟨tag, _, p, hp, _⟩, hw⟩
  obtain rfl := hw.eq_of_parentOf htop
  simp [htop] at hp

/-- The root has no parent, so that it is neither an emptied paragraph nor inside an attribution. -/
theorem Restructured.root_eq {t t' : Tree} (h : Restructured t t') (ht : Proper t) {r : NodeId}
    (hr : t.root = some r) : t'.root = some r := by
  have htop : t.parentOf r = none := ht.top hr
  refine h.thinned.root_eq hr ((h.live r (ht.forest.root_lt hr)).2 ⟨⟨r, hr, .refl r⟩, ?_, ?_⟩)
  · rintro ⟨⟨_, f, hf, _⟩, _⟩
    simp [htop] at hf
  · rintro ⟨a, _, hb⟩
    obtain ⟨p, hp, _⟩ := below_iff.1 hb
    simp [htop] at hp

/-- No rule before the labels loses the root, makes it a reference or takes its target. -/
theorem rootReference_iff (ht : Proper t) (ho : Opening t t₁ t₃) (hr : Relabelled t₃ t₄)
    (hk : Kept [] touchedNames t₃ t₄) (hm : Restructured t₄ t₁₁) {r : NodeId} :
    RootReference t₁₁ r ↔ RootReference t r := by
  have hthin : Thinned t₁ t₁₁ := (ho.thinned.trans
    ((hr.rearranged ho.thinned.proper hk.mono).thinned ho.thinned.proper)).trans hm.thinned
  have hroot : t₁₁.root = some r ↔ t.root = some r := by
    constructor
    · intro h
      rw [← ho.relabelled.root]
      exact hthin.root r h
    · intro h
      exact hm.root_eq hr.proper (hr.root.trans (ho.root_eq h))
  rw [RootReference, RootReference, hroot]
  refine and_congr_right fun h => ?_
  have hl : t.Live r := ⟨r, h, .refl r⟩
  have hlt : r < t₁.nodes.size := ho.relabelled.size ▸ ht.forest.root_lt h
  rw [hthin.made.tag?_iff hthin.kept (by decide) (by decide), ho.tag?_eq hl,
    hthin.kept.attribute?_eq hlt (by decide), ho.attribute?_eq hl]
  refine and_congr_left fun _ => ?_
  cases t.tag? r with
  | none => simp
  | some tag => simp [bookTag_eq_iff (show "xref" ∉ bookTags.map Prod.fst by decide) (by decide)]

end BookRulesOutcome

theorem run_bookRules {t : Tree} (h : Proper t) :
    ∃ n₁ t₁ n₃ t₃, (runAll (bookRules.take 1)).run t = .ok n₁ t₁ ∧
      (runAll (bookRules.take 3)).run t = .ok n₃ t₃ ∧ Opening t t₁ t₃ ∧
      BookRulesOutcome t t₁ t₃ ((runAll bookRules).run t) := by
  obtain ⟨n₁, t₁, n₃, t₃, hrun₁, hrun₃, ho, _⟩ := run_opening h
  refine ⟨n₁, t₁, n₃, t₃, hrun₁, hrun₃, ho, ?_⟩
  have hrules : bookRules = bookRules.take 3 ++ codeLanguage ::
      ((bookRules.drop 4).take 7 ++ [labelCrossReferences, columnSpecs]) := rfl
  rw [hrules, runAll_append, hrun₃]
  simp only
  rcases run_codeLanguage ho.thinned.proper with
    ⟨n₄, t₄, hrun₄, hlang⟩ | ⟨id, hl, hc, hs, t₄, hrun₄⟩
  · have hr := hlang.relabelled
    have hk := hlang.kept
    have hb : ¬ Blocked t₃ := fun ⟨id, hl, hc, hs⟩ => hlang.unstuck id hl hc hs
    obtain ⟨n₁₁, t₁₁, hrun₁₁, hm⟩ := run_restructuring hr.proper
    rw [runAll_cons_of_ok hrun₄, runAll_append, hrun₁₁]
    simp only
    have hroot {r : NodeId} := rootReference_iff (r := r) h ho hr hk hm
    rcases run_labelCrossReferences hm.thinned.proper with
      ⟨n₁₂, t₁₂, hrun₁₂, hn, hlab⟩ | ⟨r, hrr, t₁₂, hrun₁₂⟩
    · obtain ⟨n, t', hrun, hp, hlive⟩ := run_columnSpecs hlab.proper
      rw [runAll_cons_of_ok hrun₁₂, runAll_cons_of_ok hrun]
      exact .done hb (fun r hr => hn ⟨r, hroot.2 hr⟩) hr hk hm hlab hp hlive
    · rw [runAll_cons_of_error hrun₁₂]
      exact .unplaced hb (hroot.1 hrr)
  · rw [runAll_cons_of_error hrun₄]
    exact .blocked ⟨id, hl, hc, hs⟩

/-- Without code blocks and with no reference for its root, a tree goes through all rules. -/
theorem exists_ok_of_no_code {t : Tree} (h : Proper t) (hcode : ∀ i, ¬ IsCode t i)
    (hroot : ∀ r, ¬ RootReference t r) : ∃ n t', (runAll bookRules).run t = .ok n t' := by
  obtain ⟨n₁, t₁, n₃, t₃, _, _, ho, houtcome⟩ := run_bookRules h
  generalize (runAll bookRules).run t = result at houtcome
  cases houtcome with
  | blocked hb =>
      obtain ⟨id, hl, ⟨tag, ht, hm⟩, _⟩ := hb
      have hlt : id < t₁.nodes.size := Nat.lt_of_not_le fun hle => by
        have hmade := ho.built.made id tag hle ht
        simp only [madeTags, List.mem_cons, List.not_mem_nil, or_false] at hm hmade
        rcases hm with rfl | rfl <;> simp at hmade
      have hl₀ : t.Live id := ho.relabelled.live_iff.1 (ho.thinned.live id hlt hl)
      rw [ho.kept.tag?_eq hlt, ho.tag?_eq hl₀, Option.map_eq_some_iff] at ht
      obtain ⟨old, hold, rfl⟩ := ht
      refine absurd ⟨old, hold, ?_⟩ (hcode id)
      simp only [List.mem_cons, List.not_mem_nil, or_false] at hm ⊢
      exact hm.imp (bookTag_eq_iff (by decide) (by decide)).1
        (bookTag_eq_iff (by decide) (by decide)).1
  | unplaced _ hr => exact absurd hr (hroot _)
  | done => exact ⟨_, _, rfl⟩

end BookMarkup.Rule
