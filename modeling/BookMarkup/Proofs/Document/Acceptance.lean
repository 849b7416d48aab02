import BookMarkup.Proofs.Document.Reads
import BookMarkup.Proofs.Token.Nesting

/-!
Which texts are documents. Reading a text succeeds exactly if it falls into tokens that are nested,
with at most one element in no other one, and that are sound one by one; nothing else can go wrong.
The names of open elements never differ for the reader, since the scanner compares them first.
-/

namespace BookMarkup

open Reader

/-- The value holds no reference that stands for nothing. Declarations of namespaces are not asked
if they are left out. -/
def Tag.Attribute.Sound (o : Options) (a : Tag.Attribute) : Prop :=
  (o.stripPrefixes && declaresNamespace a.key) = true ∨ ∃ value, Text.unescape a.value = .ok value

/-- The attributes of the tag are well-formed, each key used once, and sound. -/
def Tag.Sound (o : Options) (tag : Tag) : Prop :=
  (tag.attributes true).flaw = none ∧ ∀ a ∈ (tag.attributes true).items, a.Sound o

def Token.Sound (o : Options) : Token → Prop
  | .startTag tag => tag.Sound o
  | .emptyTag tag => tag.Sound o
  | .reference name => (Text.Reference.inData name.toList).isSome
  | _ => True

def Document.Fault.Balanced (fault : Document.Fault) : Prop :=
  ∀ expected found, fault ≠ .unbalanced expected found

/-! ### Tags -/

namespace Tag.Attribute

/-- An attribute that is read with keys compared is read without comparing them as well. -/
theorem next?_of_strict {size : Nat} {first? : String → Option Nat} {rest : List Char}
    {found : Option (Attribute × List Char)} (h : next? size first? rest = .ok found) :
    next? size (fun _ => none) rest = .ok found := by
  rw [next?] at h ⊢
  split
  · next hr => rw [hr] at h; exact h
  · next c cs hr =>
    rw [hr] at h
    simp only at h ⊢
    cases ha : afterEquals size (cs.dropWhile inKey) with
    | error flaw => rw [ha] at h; simp [bind, Except.bind] at h
    | ok after =>
        rw [ha] at h
        simp only [bind, Except.bind] at h ⊢
        cases hf : first? (String.ofList (c :: cs.takeWhile inKey)) with
        | some first => rw [hf] at h; simp [throw, throwThe, MonadExceptOf.throw] at h
        | none => rw [hf] at h; exact h

/-- What is read with keys compared is read in the same way without comparing them. -/
theorem readFrom_of_strict {size count : Nat} {earlier : List Attribute} {rest : List Char}
    (h : (readFrom size true count earlier rest).flaw = none) :
    readFrom size false count earlier rest = readFrom size true count earlier rest := by
  induction count generalizing earlier rest with
  | zero => rfl
  | succ count ih =>
      rw [readFrom] at h
      rw [readFrom, readFrom]
      simp only [if_true] at h
      split at h
      · simp at h
      · next hn => simp [hn, next?_of_strict hn]
      · next a rest' hn =>
        simp only [Bool.false_eq_true, if_false, if_true, hn, next?_of_strict hn]
        exact ih h

end Tag.Attribute

namespace Reader

section Tags

variable {o : Options} {tag : Tag}

theorem exists_lookup (h : (tag.attributes true).flaw = none) (key : String) :
    ∃ value, tag.lookup key = .ok value := by
  have hf : (tag.attributes false).flaw = none := by
    rw [Tag.attributes, Tag.Attribute.readFrom_of_strict h]
    exact h
  rw [Tag.lookup, Readout.find?, hf]
  cases (tag.attributes false).items.find? (·.key == key) with
  | none => exact ⟨_, rfl⟩
  | some a => exact ⟨_, rfl⟩

theorem preservesSpace_cases (tag : Tag) (inherited : Bool) :
    (∃ preserves, preservesSpace tag inherited = .ok preserves) ∨
      ∃ flaw, preservesSpace tag inherited = .error (.attribute flaw) ∧ ¬ tag.Sound o := by
  rw [preservesSpace]
  split
  · next flaw hl =>
    refine .inr ⟨flaw, rfl, fun hs => ?_⟩
    obtain ⟨value, hv⟩ := exists_lookup hs.1 "xml:space"
    simp [hl] at hv
  · exact .inl ⟨_, rfl⟩
  · exact .inl ⟨_, rfl⟩
  · exact .inl ⟨_, rfl⟩

theorem attributesFrom_cases (o : Options) (earlier : Attributes) (as : List Tag.Attribute) :
    (∃ attributes, attributesFrom o earlier as = .ok attributes ∧ ∀ a ∈ as, a.Sound o) ∨
      ∃ flaw, attributesFrom o earlier as = .error (.value flaw) ∧ ¬ ∀ a ∈ as, a.Sound o := by
  fun_induction attributesFrom o earlier as with
  | case1 => simp
  | case2 earlier a rest hd ih =>
      have ha : a.Sound o := .inl hd
      simpa only [List.forall_mem_cons, ha, true_and] using ih
  | case3 earlier a rest hd flaw hu =>
      have ha : ¬ a.Sound o := by simp [Tag.Attribute.Sound, hd, hu]
      exact .inr ⟨flaw, rfl, fun h => ha (h a List.mem_cons_self)⟩
  | case4 earlier a rest hd value hu ih =>
      have ha : a.Sound o := .inr ⟨value, hu⟩
      simpa only [List.forall_mem_cons, ha, true_and] using ih

theorem attributesOf_cases (o : Options) (tag : Tag) :
    (∃ attributes, attributesOf o tag = .ok attributes ∧ tag.Sound o) ∨
      ∃ fault, attributesOf o tag = .error fault ∧ fault.Balanced ∧ ¬ tag.Sound o := by
  rw [attributesOf]
  rcases attributesFrom_cases o Attributes.empty (tag.attributes true).items with
    ⟨attributes, ha, hs⟩ | ⟨flaw, ha, hs⟩
  · simp only [ha, bind, Except.bind]
    cases hf : (tag.attributes true).flaw with
    | none => exact .inl ⟨attributes, rfl, hf, hs⟩
    | some flaw => exact .inr ⟨.attribute flaw, rfl, by simp [Document.Fault.Balanced],
        fun h => by simp [h.1] at hf⟩
  · exact .inr ⟨.value flaw, by simp [ha, bind, Except.bind], by simp [Document.Fault.Balanced],
      fun h => hs h.2⟩

end Tags

/-! ### Tokens -/

/-- The reader is in step with the scanner: it has the same elements open, by the names that it
keeps, and a root as soon as one has been open. -/
structure InStep (o : Options) (names : List String) (r : Reader) : Prop where
  tags : r.opened.map Opened.tag = names.map o.nameOf
  rooted : names ≠ [] → r.tree.root ≠ none

def Taken (o : Options) (names : List String) (r : Reader) (token : Token) : Prop :=
  token.Sound o ∧ (names = [] → token.begins = true → r.tree.root = none)

section Step

variable {o : Options} {names names' : List String} {r r' : Reader}

theorem InStep.opened_eq_nil_iff (h : InStep o names r) : r.opened = [] ↔ names = [] := by
  rw [← List.map_eq_nil_iff (f := Opened.tag), h.tags, List.map_eq_nil_iff]

theorem InStep.of_eq (h : InStep o names r) (ho : r'.opened = r.opened)
    (hr : r'.tree.root = r.tree.root) : InStep o names r' :=
  ⟨ho ▸ h.tags, hr ▸ h.rooted⟩

theorem addElement_cases (h : InStep o names r) (tag : Tag) :
    (∃ id r', (addElement o tag).run r = .ok id r' ∧ tag.Sound o ∧
      (names = [] → r.tree.root = none) ∧ r'.opened = r.opened ∧ r'.tree.root ≠ none) ∨
    ∃ fault r', (addElement o tag).run r = .error fault r' ∧ fault.Balanced ∧
      ¬ (tag.Sound o ∧ (names = [] → r.tree.root = none)) := by
  rw [run_addElement]
  rcases attributesOf_cases o tag with ⟨attributes, ha, hs⟩ | ⟨fault, ha, hb, hs⟩
  · rw [ha]
    simp only
    cases ho : r.opened with
    | cons top rest =>
        have hn : names ≠ [] := fun hn => by simp [h.opened_eq_nil_iff.2 hn] at ho
        exact .inl ⟨_, _, rfl, hs, fun hn' => absurd hn' hn, rfl, by simpa using h.rooted hn⟩
    | nil =>
        have hn : names = [] := h.opened_eq_nil_iff.1 ho
        cases hr : r.tree.root with
        | none => exact .inl ⟨_, _, rfl, hs, fun _ => rfl, rfl, by simp⟩
        | some root => exact .inr ⟨_, _, rfl, by simp [Document.Fault.Balanced],
            fun hc => by simpa using hc.2 hn⟩
  · rw [ha]
    exact .inr ⟨_, _, rfl, hb, fun hc => hs hc.1⟩

def TakenOrRefused (o : Options) (names names' : List String) (r : Reader) (token : Token) : Prop :=
  (∃ r', (take o token).run r = .ok () r' ∧ Taken o names r token ∧ InStep o names' r' ∧
    (r'.tree.root = none ↔ r.tree.root = none ∧ token.begins = false)) ∨
  ∃ fault r', (take o token).run r = .error fault r' ∧ fault.Balanced ∧ ¬ Taken o names r token

theorem InStep.flush (h : InStep o names r) (closing : Bool) :
    InStep o names (Reader.flush o closing r) :=
  h.of_eq (by simp) (by simp)

/-- What is not a tag leaves the open elements and the root as they are. -/
theorem InStep.take_of_same (h : InStep o names r) {token : Token}
    (hr : (take o token).run r = .ok () r') (hs : token.Sound o) (hb : token.begins = false)
    (ho : r'.opened = r.opened) (hroot : r'.tree.root = r.tree.root) :
    TakenOrRefused o names names r token :=
  .inl ⟨r', hr, ⟨hs, by simp [hb]⟩, h.of_eq ho hroot, by simp [hroot, hb]⟩

theorem InStep.take_startTag (h : InStep o names r) (tag : Tag) :
    TakenOrRefused o names (tag.name :: names) r (.startTag tag) := by
  rw [TakenOrRefused, run_take_startTag]
  simp only
  rcases preservesSpace_cases (o := o) tag
    (((Reader.flush o false r).opened.head?.map Opened.preserves).getD false) with
    ⟨preserves, hp⟩ | ⟨flaw, hp, hs⟩
  · rw [hp]
    simp only
    rcases addElement_cases (h.flush false) tag with
      ⟨id, r₁, hadd, hs, hroot, ho, hr₁⟩ | ⟨fault, r₁, hadd, hb, hs⟩
    · rw [hadd]
      rw [root_flush] at hroot
      refine .inl ⟨_, rfl, ⟨hs, fun hn _ => hroot hn⟩, ⟨?_, fun _ => hr₁⟩, by
        simp [hr₁, Token.begins]⟩
      rw [List.map_cons, ho, (h.flush false).tags, List.map_cons]
    · rw [hadd]
      exact .inr ⟨_, _, rfl, hb, fun hc => hs ⟨hc.1, by simpa using fun hn => hc.2 hn rfl⟩⟩
  · rw [hp]
    exact .inr ⟨_, _, rfl, by simp [Document.Fault.Balanced], fun hc => hs hc.1⟩

theorem InStep.take_emptyTag (h : InStep o names r) (tag : Tag) :
    TakenOrRefused o names names r (.emptyTag tag) := by
  rw [TakenOrRefused, run_take_emptyTag]
  rcases addElement_cases (h.flush false) tag with
    ⟨id, r₁, hadd, hs, hroot, ho, hr₁⟩ | ⟨fault, r₁, hadd, hb, hs⟩
  · rw [hadd]
    rw [root_flush] at hroot
    exact .inl ⟨_, rfl, ⟨hs, fun hn _ => hroot hn⟩,
      ⟨(congrArg _ ho).trans (h.flush false).tags, fun _ => hr₁⟩, by simp [hr₁, Token.begins]⟩
  · rw [hadd]
    exact .inr ⟨_, _, rfl, hb, fun hc => hs ⟨hc.1, by simpa using fun hn => hc.2 hn rfl⟩⟩

/-- The scanner has compared the names already, so that the reader finds the same. -/
theorem InStep.take_endTag {name : String} (h : InStep o (name :: names) r) :
    TakenOrRefused o (name :: names) names r (.endTag name) := by
  have htags := (h.flush true).tags
  rw [TakenOrRefused, run_take_endTag]
  cases ho : (Reader.flush o true r).opened with
  | nil =>
      rw [ho] at htags
      simp at htags
  | cons top rest =>
      rw [ho, List.map_cons, List.map_cons, List.cons.injEq] at htags
      simp only
      rw [if_pos htags.1]
      exact .inl ⟨_, rfl, ⟨trivial, by simp⟩,
        ⟨htags.2, fun _ => by simpa using h.rooted (List.cons_ne_nil _ _)⟩, by
          simp [Token.begins]⟩

/-- With the scanner ahead, a token is taken in step with it, or refused for what it is. -/
theorem take_cases (h : InStep o names r) {token : Token}
    (hn : Token.nest names token = .ok names') : TakenOrRefused o names names' r token := by
  cases token with
  | startTag tag =>
      obtain rfl := Except.ok.inj hn
      exact h.take_startTag tag
  | emptyTag tag =>
      obtain rfl := Except.ok.inj hn
      exact h.take_emptyTag tag
  | endTag found =>
      simp only [Token.nest] at hn
      split at hn
      · simp at hn
      · next name names =>
        split at hn
        · next heq =>
          subst heq
          obtain rfl := Except.ok.inj hn
          exact h.take_endTag
        · simp at hn
  | text characters =>
      obtain rfl := Except.ok.inj hn
      exact h.take_of_same (run_take_text o r characters) trivial rfl rfl rfl
  | reference name =>
      obtain rfl := Except.ok.inj hn
      have hr := run_take_reference o r name
      cases hc : Text.Reference.inData name.toList with
      | none =>
          rw [hc] at hr
          exact .inr ⟨_, _, hr, by simp [Document.Fault.Balanced],
            fun ht => by simpa [Token.Sound, hc] using ht.1⟩
      | some c =>
          rw [hc] at hr
          exact h.take_of_same hr (by simp [Token.Sound, hc]) rfl rfl rfl
  | cdata characters =>
      obtain rfl := Except.ok.inj hn
      exact h.take_of_same (run_take_cdata o r characters) trivial rfl (by simp) (by simp)
  | comment characters =>
      obtain rfl := Except.ok.inj hn
      exact h.take_of_same (run_take_comment o r characters) trivial rfl (by simp) (by simp)
  | instruction target data =>
      obtain rfl := Except.ok.inj hn
      exact h.take_of_same (run_take_instruction o r target data) trivial rfl (by simp) (by simp)
  | declaration tag =>
      obtain rfl := Except.ok.inj hn
      obtain ⟨standalone, hr⟩ := run_take_declaration o r tag
      exact h.take_of_same hr trivial rfl rfl rfl
  | doctype =>
      obtain rfl := Except.ok.inj hn
      exact h.take_of_same (run_take_doctype o r) trivial rfl rfl rfl

/-- One more root may come if there is none yet. -/
theorem taken_iff (h : InStep o names r) {token : Token} {n : Nat}
    (hroot : r'.tree.root = none ↔ r.tree.root = none ∧ token.begins = false) :
    (names = [] → token.begins = true → r.tree.root = none) ∧
        n + (if r'.tree.root = none then 0 else 1) ≤ 1 ↔
      (n + if names = [] ∧ token.begins then 1 else 0) +
        (if r.tree.root = none then 0 else 1) ≤ 1 := by
  by_cases hn : names = []
  · cases hb : token.begins <;> by_cases hr : r.tree.root = none <;> simp [*]
  · simp [hroot, hn, h.rooted hn]

/-- Tokens are taken in step with the scanner, or one of them is refused: for what it is, or because
they begin more than one root. -/
theorem forM_take_cases {tokens : List Token} {n : Nat} (h : InStep o names r)
    (hs : Token.Stacks names tokens names' n) :
    (∃ r', (forM tokens (take o)).run r = .ok () r' ∧ (∀ token ∈ tokens, token.Sound o) ∧
      n + (if r.tree.root = none then 0 else 1) ≤ 1 ∧ InStep o names' r' ∧
      (r'.tree.root = none ↔ r.tree.root = none ∧ ∀ token ∈ tokens, token.begins = false)) ∨
    ∃ fault r', (forM tokens (take o)).run r = .error fault r' ∧ fault.Balanced ∧
      ¬ ((∀ token ∈ tokens, token.Sound o) ∧ n + (if r.tree.root = none then 0 else 1) ≤ 1) := by
  induction hs generalizing r with
  | nil names => exact .inl ⟨r, rfl, by simp, by split <;> simp, h, by simp⟩
  | @cons names names' names'' token tokens n hn _ ih =>
      rw [List.forM_cons, EStateM.run_bind]
      rcases take_cases h hn with ⟨r₁, hr₁, ht, h₁, hroot₁⟩ | ⟨fault, r₁, hr₁, hb, ht⟩
      · rw [hr₁]
        simp only [List.forall_mem_cons]
        have hcount := taken_iff (n := n) h hroot₁
        rcases ih h₁ with ⟨r₂, hr₂, hs, hle, h₂, hroot₂⟩ | ⟨fault, r₂, hr₂, hb, hs⟩
        · exact .inl ⟨r₂, hr₂, ⟨ht.1, hs⟩, hcount.1 ⟨ht.2, hle⟩, h₂, by
            rw [hroot₂, hroot₁, and_assoc]⟩
        · exact .inr ⟨fault, r₂, hr₂, hb, fun hc => hs ⟨hc.1.2, (hcount.2 hc.2).2⟩⟩
      · rw [hr₁]
        refine .inr ⟨fault, r₁, rfl, hb, fun hc => ht ⟨hc.1 token List.mem_cons_self, ?_⟩⟩
        intro hn hbegins
        by_contra hr
        have hle := hc.2
        simp [hn, hbegins, hr] at hle

end Step

theorem inStep_empty (o : Options) : InStep o [] {} :=
  ⟨rfl, fun h => absurd rfl h⟩

section Reads

open Token

variable {o : Options} {names : List String} {text : List Char} {r r' : Reader}

theorem InStep.root_ne_none (h : InStep o names r) (hreads : Reads o names text r r')
    (hroot : r.tree.root ≠ none) : r'.tree.root ≠ none := by
  induction hreads with
  | done => exact hroot
  | token _ hnest hr _ ih =>
      rcases take_cases h hnest with ⟨r₁, hr₁, -, h₁, hroot₁⟩ | ⟨fault, r₁, hr₁, -⟩
      · obtain rfl := (EStateM.Result.ok.inj (hr.symm.trans hr₁)).2
        exact ih h₁ fun hnone => hroot (hroot₁.1 hnone).1
      · simp [hr₁] at hr

theorem Reads.root_ne_none {c : Char} {rest : List Char} (hc : c ∉ ['!', '?', '/'])
    (hstep : InStep o names r) (h : Reads o names ('<' :: c :: rest) r r') :
    r'.tree.root ≠ none := by
  cases h with
  | @token _ names' _ _ rest' token _ r₁ _ hn hnest hr h =>
      have hbegins : token.begins = true := by
        rw [next, if_pos rfl, markup_tag _ hc] at hn
        split at hn
        · next inside _ _ =>
          obtain ⟨rfl, -⟩ := Prod.mk.inj (Except.ok.inj hn)
          rw [ofInside]
          split <;> rfl
        · simp at hn
      rcases take_cases hstep hnest with ⟨r₂, hr₂, -, h₁, hroot⟩ | ⟨fault, r₂, hr₂, -⟩
      · obtain rfl := (EStateM.Result.ok.inj (hr.symm.trans hr₂)).2
        exact h₁.root_ne_none h fun hnone => by simp [hbegins, hroot] at hnone
      · simp [hr₂] at hr

end Reads

end Reader

/-! ### Texts -/

namespace Document

variable {o : Reader.Options} {text : String} {d : Document}

theorem exists_parse_iff : (∃ d, parse o text = .ok d) ↔
    (Token.scan (Token.withoutMark text.toList)).flaw = none ∧
      (∃ n ≤ 1, Token.Nested n (Token.scan (Token.withoutMark text.toList)).items) ∧
      ∀ token ∈ (Token.scan (Token.withoutMark text.toList)).items, token.Sound o := by
  obtain ⟨names, n, hstacks⟩ := Token.exists_stacks_scan (Token.withoutMark text.toList)
  have hnested (m : Nat) : Token.Nested m (Token.scan (Token.withoutMark text.toList)).items ↔
      names = [] ∧ m = n := hstacks.closing_iff
  simp only [parse_ok, run_takeAll_ok, hnested]
  rcases forM_take_cases (inStep_empty o) hstacks with
    ⟨r, hr, hs, hle, hin, -⟩ | ⟨fault, r, hr, -, hs⟩
  · constructor
    · rintro ⟨d, r', ⟨hr', hf, ho⟩, rfl⟩
      obtain rfl := (EStateM.Result.ok.inj (hr.symm.trans hr')).2
      exact ⟨hf, ⟨n, by simpa using hle, hin.opened_eq_nil_iff.1 ho, rfl⟩, hs⟩
    · rintro ⟨hf, ⟨m, -, hn, -⟩, -⟩
      exact ⟨_, r, ⟨hr, hf, hin.opened_eq_nil_iff.2 hn⟩, rfl⟩
  · constructor
    · rintro ⟨d, r', ⟨hr', -⟩, rfl⟩
      simp [hr] at hr'
    · rintro ⟨-, ⟨m, hm, -, rfl⟩, hsound⟩
      exact absurd ⟨hsound, by simpa using hm⟩ hs

theorem root_eq_none_iff_of_parse (h : parse o text = .ok d) : d.tree.root = none ↔
    ∀ token ∈ (Token.scan (Token.withoutMark text.toList)).items, token.begins = false := by
  obtain ⟨r, hrun, rfl⟩ := parse_ok.1 h
  obtain ⟨hrun, -, -⟩ := run_takeAll_ok.1 hrun
  obtain ⟨names, n, hstacks⟩ := Token.exists_stacks_scan (Token.withoutMark text.toList)
  rcases forM_take_cases (inStep_empty o) hstacks with
    ⟨r', hr, -, -, -, hroot⟩ | ⟨fault, r', hr, -⟩
  · obtain rfl := (EStateM.Result.ok.inj (hrun.symm.trans hr)).2
    rw [document, hroot]
    simp
  · simp [hrun] at hr

/-- A text that begins with a tag after white space, which is no end tag, has a root. -/
theorem root_ne_none_of_parse {before rest : List Char} {c : Char} (h : parse o text = .ok d)
    (ht : text.toList = before ++ '<' :: c :: rest) (hb : ∀ x ∈ before, Text.isSpace x)
    (hc : c ∉ ['!', '?', '/']) : d.tree.root ≠ none := by
  have hplain : ∀ x ∈ before, Token.isPlain x := fun x hx => by
    have hspace := hb x hx
    simp only [Token.isPlain, Bool.and_eq_true, bne_iff_ne]
    constructor <;>
    · rintro rfl
      exact absurd hspace (by decide)
  have hmark : Token.withoutMark text.toList = text.toList := by
    rw [Token.withoutMark.eq_def]
    split
    · next tail he =>
      rw [ht] at he
      cases before with
      | nil => simp at he
      | cons x before =>
          obtain ⟨rfl, -⟩ := List.cons.inj he
          exact absurd (hb _ List.mem_cons_self) (by decide)
    · rfl
  obtain ⟨r, hreads, rfl⟩ := parse_ok_iff_reads.1 h
  rw [hmark, ht, Reader.reads_plain hplain] at hreads
  refine hreads.root_ne_none hc (.of_eq (Reader.inStep_empty o) ?_ ?_) <;> rfl

theorem nodes_eq_empty_of_parse (h : parse o text = .ok d) (hr : d.tree.root = none) :
    d.tree.nodes = #[] := by
  obtain ⟨r, hg, ho, rfl⟩ := exists_of_parse h grown_empty fun _ _ _ _ hr hrun => hr.take hrun
  have hs := hg.spine
  rw [ho, List.map_nil] at hs
  rcases hs with ⟨-, hsize⟩ | ⟨hroot, -⟩
  · exact Array.eq_empty_of_size_eq_zero hsize
  · exact absurd (hr.symm.trans hroot) (by simp)

/-- What is found not to be balanced is the innermost element left open at the end. -/
theorem innermost_of_unbalanced {expected found : String}
    (h : parse o text = .error (.unbalanced expected found)) :
    (Token.scan (Token.withoutMark text.toList)).flaw = none ∧
      (∀ token ∈ (Token.scan (Token.withoutMark text.toList)).items, token.Sound o) ∧
      found = "EOF" ∧ ∃ before tag inside n,
        (Token.scan (Token.withoutMark text.toList)).items = before ++ .startTag tag :: inside ∧
        Token.Nested n inside ∧ expected = o.nameOf tag.name := by
  obtain ⟨names, n, hstacks⟩ := Token.exists_stacks_scan (Token.withoutMark text.toList)
  rw [parse_eq, takeAll, EStateM.run_bind, List.forM_eq_forM] at h
  rcases forM_take_cases (inStep_empty o) hstacks with
    ⟨r, hr, hs, -, hin, -⟩ | ⟨fault, r, hr, hb, -⟩
  · rw [hr] at h
    simp only at h
    cases hf : (Token.scan (Token.withoutMark text.toList)).flaw with
    | some spot =>
        rw [hf] at h
        simp at h
    | none =>
        rw [hf] at h
        simp only [EStateM.run_bind, EStateM.run_get] at h
        cases ho : r.opened with
        | nil =>
            rw [ho] at h
            simp at h
        | cons top rest =>
            rw [ho] at h
            simp only [run_throw, Except.error.injEq, Fault.unbalanced.injEq] at h
            have htags := hin.tags
            rw [ho, List.map_cons] at htags
            cases names with
            | nil => simp at htags
            | cons name names =>
                obtain ⟨before, tag, inside, m, heq, rfl, hm⟩ := hstacks.exists_startTag
                exact ⟨rfl, hs, h.2.symm, before, tag, inside, m, heq, hm,
                  h.1.symm.trans (List.cons.inj htags).1⟩
  · rw [hr] at h
    exact absurd (Except.error.inj h) (hb expected found)

/-- A text is a document exactly if it falls into tokens without a flaw, these are nested and sound,
and they begin at most one element that is in no other one. The document has no root exactly if no
element begins, and then it has no nodes at all. That tags are not balanced is only found at the end
of the text, for the innermost element that is left open. -/
theorem parse_ok_iff_nested (o : Reader.Options) (text : String) :
    let tokens := Token.scan (Token.withoutMark text.toList)
    ((∃ d, parse o text = .ok d) ↔ tokens.flaw = none ∧
      (∃ n ≤ 1, Token.Nested n tokens.items) ∧ ∀ token ∈ tokens.items, token.Sound o) ∧
    (∀ d, parse o text = .ok d →
      (d.tree.root = none ↔ ∀ token ∈ tokens.items, token.begins = false) ∧
      (d.tree.root = none → d.tree.nodes = #[])) ∧
    ∀ expected found, parse o text = .error (.unbalanced expected found) →
      tokens.flaw = none ∧ (∀ token ∈ tokens.items, token.Sound o) ∧ found = "EOF" ∧
      ∃ before tag inside n, tokens.items = before ++ .startTag tag :: inside ∧ Token.Nested n inside ∧
        expected = o.nameOf tag.name :=
  ⟨exists_parse_iff, fun _ h => ⟨root_eq_none_iff_of_parse h, nodes_eq_empty_of_parse h⟩,
    fun _ _ => innermost_of_unbalanced⟩

/-- A reference in a root is all right if it has a meaning. -/
theorem parse_ok_of_reference : ∃ d, parse {} "<a>&lt;</a>" = .ok d := by
  have hs : Token.scan (Token.withoutMark "<a>&lt;</a>".toList) =
      ⟨[.startTag ⟨"a", []⟩, .reference "lt", .endTag "a"], none⟩ := by decide +kernel
  refine (parse_ok_iff_nested {} "<a>&lt;</a>").1.2 ?_
  rw [hs]
  refine ⟨rfl, ⟨1, Nat.le_refl 1, .element ⟨"a", []⟩ (.leaf rfl rfl .nil) .nil⟩, ?_⟩
  have ha : (Tag.mk "a" []).attributes true = ⟨[], none⟩ := rfl
  have hr : (Text.Reference.inData ['l', 't']).isSome := by decide +kernel
  simp [Token.Sound, Tag.Sound, ha, hr]

end Document

end BookMarkup
