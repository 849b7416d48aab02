import BookMarkup.Proofs.Rule.Wrapped

/-!
What a run does to the labels of the nodes that are left. No rule reaches a node that it is not meant
for: tags change as the vocabulary says and where listings are made, and attributes go, get other
names or come in only there, too. Attributes that stay keep their order and their values.
-/

namespace BookMarkup.Rule

open BookMarkup.Tree

/-! ### Before the rules for listings -/

/-- The attributes of an element as the rules before those for listings leave them: those that books
do not have are gone, and the language of a code block is its format. -/
def bookAttributes (n : Node) : Attributes :=
  let kept := n.attributes.without (dropped prunedAttributes n.name)
  if n.name ∈ ["screen", "programlisting"] then kept.renamedTo "language" "format" else kept

def vernacular (n : Node) : Node :=
  if n.isElement then { n with name := bookTag n.name, attributes := bookAttributes n } else n

/-- Tags that the vocabulary does not exchange stand for the same elements before and after. -/
theorem bookTag_mem_iff {names : List String} (h : ∀ name ∈ names,
    name ∉ bookTags.map Prod.fst ∧ name ∉ bookTags.map Prod.snd) {tag : String} :
    bookTag tag ∈ names ↔ tag ∈ names := by
  constructor
  · intro hm
    obtain ⟨hold, hnew⟩ := h _ hm
    rwa [(bookTag_eq_iff hold hnew).1 rfl]
  · intro hm
    obtain ⟨hold, hnew⟩ := h _ hm
    rwa [(bookTag_eq_iff hold hnew).2 rfl]

theorem dropped_bookTag (tag : String) :
    dropped prunedAttributes (bookTag tag) = dropped prunedAttributes tag := by
  have hkept : ∀ p ∈ prunedAttributes, ∀ name ∈ (Selector.names p.1).flatten,
      name ∉ bookTags.map Prod.fst ∧ name ∉ bookTags.map Prod.snd := by
    obtain ⟨n₁, n₂, n₃, n₄⟩ := names_prunedAttributes
    simp only [prunedAttributes, List.forall_mem_cons, List.not_mem_nil, false_imp_iff, implies_true,
      and_true, n₁, n₂, n₃, n₄]
    decide
  rw [dropped, dropped, List.flatMap_def, List.flatMap_def]
  refine congrArg List.flatten (List.map_congr_left fun p hp => ?_)
  simp only [bookTag_mem_iff (hkept p hp)]

theorem formatted_stripped_retagged (n : Node) :
    formatted (stripped prunedAttributes (retagged bookTag n)) = vernacular n := by
  by_cases he : n.isElement
  · have hcode : bookTag n.name ∈ ["screen", "programlisting"] ↔
        n.name ∈ ["screen", "programlisting"] := bookTag_mem_iff (by decide)
    have he' (tag : String) (a : Attributes) :
        ({ n with name := tag, attributes := a } : Node).isElement = true := he
    rw [retagged, if_pos he, stripped, if_pos (he' _ n.attributes), bared, formatted, among, vernacular,
      if_pos he, bookAttributes]
    simp only [dropped_bookTag, he', true_and, hcode]
    split
    · rfl
    · rfl
  · rw [retagged, if_neg he, stripped, if_neg he, formatted, among, if_neg fun h => he h.1,
      vernacular, if_neg he]

/-! ### The blocks that rules for listings take -/

def TitledPara (t : Tree) (p : NodeId) : Prop :=
  ∃ b f, Titled t b f ∧ t.parentOf b = some p

def Boxed (t t' : Tree) (b : NodeId) : Prop :=
  IsCode t b ∧ ∃ w, t'.parentOf b = some w ∧ t.nodes.size ≤ w ∧ t'.tag? w = some "informalexample"

/-! No element takes two parts in a listing, since the parts have different tags. -/

section Parts

variable {t t' : Tree} {i b : NodeId}

theorem TitledPara.tag? (h : TitledPara t i) : t.tag? i = some "para" := by
  obtain ⟨b, f, hb, hp⟩ := h
  exact (hb.para hp).1

theorem TitledPara.not_titled (h : TitledPara t i) : ¬ Titled t b i := by
  intro hb
  simpa [h.tag?] using hb.formalpara

theorem IsCode.not_titledPara (h : IsCode t i) : ¬ TitledPara t i :=
  fun hp => not_isCode_of_tag? hp.tag? (by decide) h

theorem IsCode.not_formal (h : IsCode t i) : ¬ Titled t b i :=
  fun hb => not_isCode_of_tag? hb.formalpara (by decide) h

end Parts

namespace Stages

variable {t t' : Tree} (s : Stages t t')

include s

theorem size_renamed_le : s.renamed.nodes.size ≤ s.formatted.nodes.size := by
  rw [s.format.relabelled.size]
  exact Nat.le_of_not_lt fun h => Nat.lt_irrefl _ (s.opening.thinned.kept.lt h)

theorem titled_iff {b f : NodeId} (hf : s.opened.Live f) :
    Titled s.formatted b f ↔ Titled s.renamed b f := by
  have hsame : Titled s.formatted b f ↔ Titled s.opened b f := by
    simp only [Titled, IsCode, s.format.relabelled.tag?_eq s.format.kept,
      s.format.relabelled.parentOf]
  rw [hsame, s.open'.titled_iff s.opening hf]

theorem titledPara_iff {p : NodeId} (hl : s.opened.Live p) (hp : p < s.renamed.nodes.size) :
    TitledPara s.formatted p ↔ TitledPara s.renamed p := by
  have hparent {b : NodeId} (ht : s.renamed.tag? p = some "para") :
      s.formatted.parentOf b = some p ↔ s.renamed.parentOf b = some p := by
    rw [s.format.relabelled.parentOf, s.opening.parentOf_iff ht hl (by decide)]
  constructor
  · rintro ⟨b, f, hb, hbp⟩
    have hpf := (hb.para hbp).2
    rw [s.format.relabelled.parentOf] at hpf
    have hb₁ := (s.titled_iff (hl.parent s.opening.thinned.proper hpf)).1 hb
    have ht : s.renamed.tag? p = some "para" := by
      rw [← s.open'.tag?_iff s.opening.kept (by decide), ← s.format.relabelled.tag?_eq s.format.kept]
      exact (hb.para hbp).1
    exact ⟨b, f, hb₁, (hparent ht).1 hbp⟩
  · rintro ⟨b, f, hb, hbp⟩
    obtain ⟨ht, hpf⟩ := hb.para hbp
    exact ⟨b, f, (s.titled_iff (s.opening.live_parent hl hp hpf)).2 hb, (hparent ht).2 hbp⟩

theorem boxed_iff {b : NodeId} (hl : t'.Live b) (hb : b < s.renamed.nodes.size) :
    (IsCode s.formatted b ∧ ∃ w, s.listed.parentOf b = some w ∧ s.formatted.nodes.size ≤ w) ↔
      Boxed s.renamed t' b := by
  have hbo := s.opening.thinned.kept.lt hb
  have hbf : b < s.formatted.nodes.size := Nat.lt_of_lt_of_le hb s.size_renamed_le
  have hbl := s.list.thinned.kept.lt hbf
  have hll := s.movesOnly_listed.thinned.live b hbl hl
  have hcode : IsCode s.formatted b ↔ IsCode s.renamed b := by
    simp only [IsCode, s.format.relabelled.tag?_eq s.format.kept, s.opening.kept.tag?_eq hb]
  have hcode' : IsCode t' b ↔ IsCode s.formatted b := by
    rw [← s.list.code b hbf hll]
    simp only [IsCode, s.movesOnly_listed.tag?_eq hbl]
  rw [Boxed, ← hcode]
  refine and_congr_right fun hc => exists_congr fun w => ?_
  constructor
  · rintro ⟨hw, hnew⟩
    have hlt := s.list.thinned.proper.forest.parent_lt hw
    exact ⟨(s.parentOf_of_listed hl (hcode'.2 hc) hw).1, Nat.le_trans s.size_renamed_le hnew,
      (s.movesOnly_listed.tag?_eq hlt).trans (s.list.new w hnew hlt)⟩
  · rintro ⟨hw, hnew, hwt⟩
    obtain ⟨_, _, hwl, _⟩ := s.parentOf_code hl (hcode'.2 hc) hw
    refine ⟨hwl, Nat.le_of_not_lt fun hlt => ?_⟩
    -- The nodes in between are introductions.
    have hintro := s.open'.new w hnew (s.format.relabelled.size ▸ hlt)
    rw [← s.thinned_opened.kept.tag?_iff (s.format.relabelled.size ▸ hlt) (by decide), hwt] at hintro
    simp at hintro

/-- The label of a node that is left, first as it comes to the rules for listings, then as they leave
it for good. -/
theorem exists_label {i : NodeId} {n : Node} (hl : t'.Live i) (hn : t.contentOf i = some n) :
    s.opened.Live i ∧ s.formatted.contentOf i = some (vernacular n) ∧
      ∃ n', t'.contentOf i = some n' ∧
        ListedLabel s.formatted s.listed i (vernacular n) n' := by
  have hi : i < s.renamed.nodes.size := by
    rw [s.opening.relabelled.size, ← contentOf_isSome_iff, hn]
    rfl
  have hio := s.opening.thinned.kept.lt hi
  have hlo := s.thinned_opened.live i hio hl
  have hlt := s.opening.relabelled.live_iff.1 (s.opening.thinned.live i hi hlo)
  have hif : i < s.formatted.nodes.size := Nat.lt_of_lt_of_le hi s.size_renamed_le
  have hil := s.list.thinned.kept.lt hif
  have hcontent : s.formatted.contentOf i = some (vernacular n) := by
    rw [s.format.contentOf i hlo, s.opening.label i hi hlo, s.opening.renamed i hlt, hn,
      Option.map_some, Option.map_some, Option.map_some, formatted_stripped_retagged]
  obtain ⟨n', hn', hlabel⟩ := s.list.label i _ (s.movesOnly_listed.thinned.live i hil hl) hcontent
  exact ⟨hlo, hcontent, n', (s.movesOnly_listed.contentOf i hil).trans hn', hlabel⟩

end Stages

/-! ### The whole run -/

/-- What a run has made of the label `n` of the node `i`. The listings with titles are told on the tree
`t₁` that the first rule leaves, the new elements on `t'`, which the last one leaves. -/
structure Rewritten (t₁ t' : Tree) (i : NodeId) (n n' : Node) : Prop where
  kind : n'.kind = n.kind
  value : n'.value = n.value
  rest : n.isElement = false → n' = n
  name : n.isElement = true → n'.name = bookTag n.name ∨
    n.name = "screen" ∧ n'.name = "programlisting" ∨ n.name = "formalpara" ∧ n'.name = "example"
  formalpara : n.isElement = true → n.name = "formalpara" →
    (n'.name = "example" ↔ ∃ b, Titled t₁ b i)
  role : n.isElement = true → TitledPara t₁ i ∨ Boxed t₁ t' i →
    n'.attributes = (bookAttributes n).erase "role"
  note : n.isElement = true → (∃ b, Titled t₁ b i) → n'.attributes = n.attributes ∨
    n'.attributes = n.attributes.insert "annotations" "below"
  attributes : n.isElement = true → ¬ TitledPara t₁ i → ¬ Boxed t₁ t' i →
    (∀ b, ¬ Titled t₁ b i) → n'.attributes = bookAttributes n

section Rewritten

variable {t₁ t' : Tree} {i : NodeId} {n : Node}

theorem Rewritten.block (he : n.isElement = true) (hn : n.name ∈ ["screen", "programlisting"])
    (hc : IsCode t₁ i) {a : Attributes} (hbox : Boxed t₁ t' i → a = (bookAttributes n).erase "role")
    (hnot : ¬ Boxed t₁ t' i → a = bookAttributes n) :
    Rewritten t₁ t' i n { n with name := "programlisting", attributes := a } where
  kind := rfl
  value := rfl
  rest h := by simp [he] at h
  name _ := by
    simp only [List.mem_cons, List.not_mem_nil, or_false] at hn
    rcases hn with hn | hn
    · exact .inr (.inl ⟨hn, rfl⟩)
    · have hsame : bookTag "programlisting" = "programlisting" := by decide
      exact .inl (by rw [hn, hsame])
  formalpara _ h := by simp [h] at hn
  role _ h := hbox (h.resolve_left hc.not_titledPara)
  note _ := fun ⟨_, hb⟩ => absurd hb hc.not_formal
  attributes _ _ h _ := hnot h

theorem Rewritten.para (he : n.isElement = true) (hn : bookTag n.name = "para")
    (hp : TitledPara t₁ i) : Rewritten t₁ t' i n
      { n with name := bookTag n.name, attributes := (bookAttributes n).erase "role" } where
  kind := rfl
  value := rfl
  rest h := by simp [he] at h
  name _ := .inl rfl
  formalpara _ h := by
    rw [h] at hn
    exact absurd hn (by decide)
  role _ _ := rfl
  note _ := fun ⟨_, hb⟩ => absurd hb hp.not_titled
  attributes _ h _ _ := absurd hp h

theorem Rewritten.formal (he : n.isElement = true) (hn : n.name = "formalpara") {b : NodeId}
    (hb : Titled t₁ b i) {a : Attributes}
    (ha : a = n.attributes ∨ a = n.attributes.insert "annotations" "below") :
    Rewritten t₁ t' i n { n with name := "example", attributes := a } where
  kind := rfl
  value := rfl
  rest h := by simp [he] at h
  name _ := .inr (.inr ⟨hn, rfl⟩)
  formalpara _ _ := iff_of_true rfl ⟨b, hb⟩
  role _ h := by
    rcases h with hp | ⟨hc, _⟩
    · exact absurd hb hp.not_titled
    · exact absurd hb hc.not_formal
  note _ _ := ha
  attributes _ _ _ h := absurd hb (h b)

theorem Rewritten.vernacular (hp : ¬ TitledPara t₁ i) (hbox : ¬ Boxed t₁ t' i)
    (hf : ∀ b, ¬ Titled t₁ b i) : Rewritten t₁ t' i n (vernacular n) := by
  rw [Rule.vernacular]
  split
  · next he =>
    exact {
      kind := rfl
      value := rfl
      rest := fun h => by simp [he] at h
      name := fun _ => .inl rfl
      formalpara := fun _ h => by
        refine iff_of_false (fun hx : bookTag n.name = "example" => ?_) (not_exists.2 hf)
        rw [h] at hx
        exact absurd hx (by decide)
      role := fun _ h => absurd h (not_or.2 ⟨hp, hbox⟩)
      note := fun _ ⟨b, hb⟩ => absurd hb (hf b)
      attributes := fun _ _ _ _ => rfl }
  · next he =>
    exact {
      kind := rfl
      value := rfl
      rest := fun _ => rfl
      name := fun h => absurd h he
      formalpara := fun h => absurd h he
      role := fun h => absurd h he
      note := fun h => absurd h he
      attributes := fun h => absurd h he }

end Rewritten

theorem bookAttributes_formalpara {n : Node} (h : n.name = "formalpara") :
    bookAttributes n = n.attributes := by
  have hdropped : dropped prunedAttributes n.name = [] := by
    obtain ⟨n₁, n₂, n₃, n₄⟩ := names_prunedAttributes
    simp [dropped, prunedAttributes, n₁, n₂, n₃, n₄, h]
  rw [bookAttributes, hdropped, Attributes.without_nil, if_neg (by simp [h])]

theorem Stages.rewritten {t t' : Tree} (s : Stages t t') {i : NodeId} {n : Node} (hl : t'.Live i)
    (hn : t.contentOf i = some n) :
    ∃ n', t'.contentOf i = some n' ∧ Rewritten s.renamed t' i n n' := by
  obtain ⟨hlo, hcontent, n', hn', hlabel⟩ := s.exists_label hl hn
  refine ⟨n', hn', ?_⟩
  have hi : i < s.renamed.nodes.size := by
    rw [s.opening.relabelled.size, ← contentOf_isSome_iff, hn]
    rfl
  have hcode : IsCode s.formatted i ↔ IsCode s.renamed i := by
    simp only [IsCode, s.format.relabelled.tag?_eq s.format.kept, s.opening.kept.tag?_eq hi]
  have hboxed := s.boxed_iff hl hi
  have hpara := s.titledPara_iff hlo hi
  have htitled (b : NodeId) := s.titled_iff (b := b) hlo
  -- What has a tag is an element, and its tag comes from the vocabulary.
  have hname {tag : String} (ht : s.formatted.tag? i = some tag) : n.isElement = true ∧
      bookTag n.name = tag ∧
      Rule.vernacular n = { n with name := bookTag n.name, attributes := bookAttributes n } := by
    rw [tag?_eq, hcontent, Option.bind_some, Node.tag?_eq_some_iff, Rule.vernacular] at ht
    split at ht
    · next he => exact ⟨he, ht.2, if_pos he⟩
    · next he => exact absurd ht.1 he
  have hblock (hc : IsCode s.formatted i) : n.isElement = true ∧
      n.name ∈ ["screen", "programlisting"] ∧
      Rule.vernacular n = { n with name := bookTag n.name, attributes := bookAttributes n } := by
    obtain ⟨tag, ht, hm⟩ := hc
    obtain ⟨he, rfl, hverse⟩ := hname ht
    exact ⟨he, (bookTag_mem_iff (by decide)).1 hm, hverse⟩
  cases hlabel with
  | @taken f h hp =>
      obtain ⟨he, hm, hverse⟩ := hblock h.1
      have hnot : ¬ Boxed s.renamed t' i := by
        rw [← hboxed]
        rintro ⟨_, w, hw, hnew⟩
        obtain rfl : f = w := Option.some.inj (hp.symm.trans hw)
        exact absurd (lt_size_of_tag? h.formalpara) (Nat.not_lt.2 hnew)
      rw [hverse]
      exact .block he hm (hcode.1 h.1) (absurd · hnot) fun _ => rfl
  | wrapped hc hw hnew =>
      obtain ⟨he, hm, hverse⟩ := hblock hc
      rw [hverse]
      exact .block he hm (hcode.1 hc) (fun _ => rfl) (absurd (hboxed.1 ⟨hc, _, hw, hnew⟩))
  | @para b f hb h =>
      obtain ⟨he, htag, hverse⟩ := hname (hb.para h).1
      rw [hverse]
      exact .para he htag (hpara.1 ⟨b, f, hb, h⟩)
  | @formal b note h hnote =>
      obtain ⟨he, htag, hverse⟩ := hname h.formalpara
      have hn : n.name = "formalpara" := (bookTag_eq_iff (by decide) (by decide)).1 htag
      rw [hverse, bookAttributes_formalpara hn]
      rcases hnote with rfl | rfl
      · exact .formal he hn ((htitled b).1 h) (.inl rfl)
      · exact .formal he hn ((htitled b).1 h) (.inr rfl)
  | rest hwrapped hpara' hformal =>
      refine .vernacular ?_ ?_ fun b => mt (htitled b).2 (hformal b)
      · rw [← hpara]
        rintro ⟨b, f, hb, hbp⟩
        exact hpara' b f hb hbp
      · rw [← hboxed]
        rintro ⟨hc, w, hw, hnew⟩
        exact absurd (hwrapped hc w hw) (Nat.not_lt.2 hnew)

/-- A run that succeeds on a document that has been read leaves the labels of all nodes as they are, but
for the changes that are told: on the tree `t₁` that the first rule leaves, which has the same links
and new tags. The language of a code block becomes its format right where it stands, unless there is
another format before it; then it may come to stand further behind. -/
theorem rewritten_of_run_bookRules {o : Reader.Options} {text : String} {d : Document} {n : Nat}
    {t' : Tree} (h : Document.parse o text = .ok d)
    (hrun : (runAll bookRules).run d.tree = .ok n t') :
    ∃ n₁ t₁, (runAll (bookRules.take 1)).run d.tree = .ok n₁ t₁ ∧
      t₁.nodes.size = d.tree.nodes.size ∧ (∀ i, t₁.parentOf i = d.tree.parentOf i) ∧
      (∀ i, d.tree.Live i → t₁.tag? i = (d.tree.tag? i).map bookTag) ∧
      ∀ i ∈ t'.live.map Node.id, ∀ old, d.tree.contentOf i = some old →
        (∃ new, t'.contentOf i = some new ∧ Rewritten t₁ t' i old new) ∧
        let kept := old.attributes.without (dropped prunedAttributes old.name)
        (old.name ∉ ["screen", "programlisting"] → bookAttributes old = kept) ∧
        (old.name ∈ ["screen", "programlisting"] →
          ("language" ∈ kept.names → kept.names.idxOf "language" ≤ kept.names.idxOf "format") →
          (bookAttributes old).entries = kept.inPlace "language" "format") := by
  obtain ⟨n₁, s, hrun₁⟩ := exists_stages (Document.proper_of_parse h) hrun
  refine ⟨n₁, s.renamed, hrun₁, s.opening.relabelled.size, s.opening.relabelled.parentOf,
    fun i hl => s.opening.tag?_eq hl, fun i hi old hold => ⟨?_, ?_, ?_⟩⟩
  · exact s.rewritten (s.movesOnly_listed.thinned.proper.forest.mem_map_live.1 hi) hold
  · exact fun hn => if_neg hn
  · intro hn hle
    rw [bookAttributes, if_pos hn, Attributes.entries_renamedTo hle]

/-- A screen gets a wrapper. -/
theorem rewritten_of_lone_screen : ∃ d n t' t₁ old new,
    Document.parse {} "<a><screen role='r' language='c'>x</screen></a>" = .ok d ∧
    (runAll bookRules).run d.tree = .ok n t' ∧ d.tree.contentOf 1 = some old ∧
    t'.contentOf 1 = some new ∧ Rewritten t₁ t' 1 old new := by
  obtain ⟨d, n, t', hparse, hrun, hl⟩ := exists_run_of_rewritten?
    "<a><screen role='r' language='c'>x</screen></a>" (P := fun t => 1 ∈ t.live.map Node.id)
    (by decide +kernel)
  obtain ⟨d', hparse', old, hold⟩ : ∃ d, Document.parse {}
      "<a><screen role='r' language='c'>x</screen></a>" = .ok d ∧
      ∃ old, d.tree.contentOf 1 = some old := by
    simp only [← Option.isSome_iff_exists]
    exact exists_ok_of_any (by decide +kernel)
  obtain rfl : d = d' := Except.ok.inj (hparse.symm.trans hparse')
  obtain ⟨_, t₁, _, _, _, _, hrewritten⟩ := rewritten_of_run_bookRules hparse hrun
  obtain ⟨⟨new, hnew, h⟩, _⟩ := hrewritten 1 hl old hold
  exact ⟨d, n, t', t₁, old, new, hparse, hrun, hold, hnew, h⟩

/-- A format before the language brings it behind the attribute that comes after it. -/
theorem misplaced_of_early_format : ∃ d n t',
    Document.parse {} "<book><screen format='y' language='x' id='z'/></book>" = .ok d ∧
    (runAll bookRules).run d.tree = .ok n t' ∧ 1 ∈ t'.live.map Node.id ∧
    (d.tree.contentOf 1).map (·.attributes.entries) =
      some [("format", "y"), ("language", "x"), ("id", "z")] ∧
    (t'.contentOf 1).map (·.attributes.entries) = some [("id", "z"), ("format", "x")] := by
  obtain ⟨d, n, t', hparse, hrun, hl, hnew⟩ := exists_run_of_rewritten?
    "<book><screen format='y' language='x' id='z'/></book>"
    (P := fun t => 1 ∈ t.live.map Node.id ∧
      (t.contentOf 1).map (·.attributes.entries) = some [("id", "z"), ("format", "x")])
    (by decide +kernel)
  obtain ⟨d', hparse', hold⟩ : ∃ d, Document.parse {}
      "<book><screen format='y' language='x' id='z'/></book>" = .ok d ∧
      (d.tree.contentOf 1).map (·.attributes.entries) =
        some [("format", "y"), ("language", "x"), ("id", "z")] :=
    exists_ok_of_any (by decide +kernel)
  obtain rfl : d = d' := Except.ok.inj (hparse.symm.trans hparse')
  exact ⟨d, n, t', hparse, hrun, hl, hold, hnew⟩

end BookMarkup.Rule
