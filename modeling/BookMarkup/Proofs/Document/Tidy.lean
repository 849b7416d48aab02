import BookMarkup.Proofs.Document.Legible
import BookMarkup.Proofs.Document.Settled
import BookMarkup.Proofs.Tree.Space

/-!
What reading leaves: the tree is proper and laid out in document order, its nodes are as reading
makes them, and blank texts are where they are kept, but for those elements in which they are free to
stand anywhere. Each token keeps this, where the elements that are still open are growing. In a text
without `xml:space` no element is free.
-/

namespace BookMarkup

def Tag.Unspaced (tag : Tag) : Prop :=
  ∀ a ∈ (tag.attributes false).items, a.key ≠ "xml:space"

namespace Reader

open BookMarkup.Tree

/-- What makes an element free does not go away when nodes are added. -/
def Steady (free : Tree → NodeId → Prop) : Prop :=
  ∀ (t : Tree) (p : NodeId) (content : Node) (i : NodeId), p < t.nodes.size → free t i →
    free (t.adopt p content) i

/-- What has been read is in order: the children of the closed elements are placed, and those of the
open ones are growing, but for the innermost one, of which `P` is known. Where the reader preserves
space, blank texts are free. -/
structure Tidy (free : Tree → NodeId → Prop) (P : Prop → Tree → List NodeId → Prop) (r : Reader) :
    Prop where
  grown : Grown r
  placed : ∀ i, i ∉ r.opened.map Opened.id → Placed (free r.tree i) r.tree (r.tree.childrenOf i)
  inner : ∀ top rest, r.opened = top :: rest →
    P (free r.tree top.id) r.tree (r.tree.childrenOf top.id)
  outer : ∀ top rest, r.opened = top :: rest → ∀ e ∈ rest,
    Growing (free r.tree e.id) r.tree (r.tree.childrenOf e.id)
  scope : ∀ e ∈ r.opened, e.preserves = true → free r.tree e.id

section Tidy

variable {o : Options} {free : Tree → NodeId → Prop} {P Q : Prop → Tree → List NodeId → Prop}
  {r r' : Reader} {top : Opened} {rest : List Opened}

theorem Tidy.of_eq (h : Tidy free P r) (ht : r'.tree = r.tree) (ho : r'.opened = r.opened) :
    Tidy free P r' := by
  obtain ⟨grown, placed, inner, outer, scope⟩ := h
  refine ⟨grown.of_eq ht ho, ?_, ?_, ?_, ?_⟩
  · rw [ho, ht]
    exact placed
  · rw [ho, ht]
    exact inner
  · rw [ho, ht]
    exact outer
  · rw [ho, ht]
    exact scope

theorem Tidy.imp (h : Tidy free P r)
    (hpq : ∀ f t siblings, P f t siblings → Q f t siblings) : Tidy free Q r :=
  { h with inner := fun top rest ho => hpq _ _ _ (h.inner top rest ho) }

theorem Grown.outer_lt (h : Grown r) (ho : r.opened = top :: rest) {e : Opened} (he : e ∈ rest) :
    e.id < top.id := by
  have hs := h.spine
  rw [ho, List.map_cons] at hs
  exact hs.2.lt_of_mem (List.mem_map_of_mem he)

theorem Tidy.pop (h : Tidy free Placed r) (ho : r.opened = top :: rest) :
    Tidy free Growing { r with opened := rest } := by
  refine ⟨h.grown.pop ho, fun i hi => ?_, fun top' rest' he => ?_,
    fun top' rest' he e hm => ?_, fun e he => ?_⟩
  · by_cases hit : i = top.id
    · exact hit ▸ h.inner top rest ho
    · refine h.placed i ?_
      rw [ho, List.map_cons, List.mem_cons, not_or]
      exact ⟨hit, hi⟩
  · obtain rfl : rest = top' :: rest' := he
    exact h.outer top _ ho top' List.mem_cons_self
  · obtain rfl : rest = top' :: rest' := he
    exact h.outer top _ ho e (List.mem_cons_of_mem top' hm)
  · exact h.scope e (ho ▸ List.mem_cons_of_mem top he)

theorem Tidy.open (h : Tidy free Growing r) {e : Opened} (he : e.preserves = true → free r.tree e.id)
    (hg : Grown { r with opened := e :: r.opened }) (hn : r.tree.childrenOf e.id = []) :
    Tidy free Growing { r with opened := e :: r.opened } := by
  refine ⟨hg, fun i hi => h.placed i fun hm => hi (List.mem_cons_of_mem _ hm),
    fun top rest ho => ?_, fun top rest ho e' he' => ?_, fun e' he' => ?_⟩
  · obtain rfl : e = top := (List.cons.inj ho).1
    rw [hn]
    exact growing_nil _ r.tree
  · obtain rfl : r.opened = rest := (List.cons.inj ho).2
    cases hop : r.opened with
    | nil => simp [hop] at he'
    | cons top' rest' =>
        rw [hop] at he'
        rcases List.mem_cons.1 he' with rfl | he'
        · exact h.inner e' rest' hop
        · exact h.outer top' rest' hop e' he'
  · rcases List.mem_cons.1 he' with rfl | he'
    · exact he
    · exact h.scope e' he'

variable (hf : Steady free)

include hf

theorem Tidy.adopt (h : Tidy free P r) (ho : r.opened = top :: rest) {content : Node}
    (ht : r'.tree = r.tree.adopt top.id content) (ho' : r'.opened = r.opened)
    (hq : Q (free (r.tree.adopt top.id content) top.id) (r.tree.adopt top.id content)
      (r.tree.childrenOf top.id ++ [r.tree.nodes.size])) : Tidy free Q r' := by
  have htop := h.grown.top_lt ho
  have hfree (i : NodeId) := hf r.tree top.id content i htop
  have hother {i : NodeId} (hi : i ≠ top.id) :
      (r.tree.adopt top.id content).childrenOf i = r.tree.childrenOf i := by
    rw [childrenOf_adopt htop, if_neg hi]
  have htext (i : NodeId) : ∀ c ∈ r.tree.childrenOf i,
      (r.tree.adopt top.id content).text? c = r.tree.text? c := fun c hc =>
    text?_adopt_of_lt top.id content
      (lt_size_of_parentOf (h.grown.proper.forest.mem_childrenOf.1 hc))
  refine ⟨h.grown.adopt ho content ht ho', ?_, ?_, ?_, ?_⟩
  · intro i hi
    rw [ho'] at hi
    have hne : i ≠ top.id := by
      rintro rfl
      exact hi (ho ▸ List.mem_map_of_mem List.mem_cons_self)
    rw [ht, hother hne]
    exact (h.placed i hi).congr (hfree i) (htext i)
  · intro top' rest' hop
    rw [ho', ho, List.cons.injEq] at hop
    rw [← hop.1, ht, childrenOf_adopt htop, if_pos rfl]
    exact hq
  · intro top' rest' hop e he
    rw [ho', ho, List.cons.injEq] at hop
    rw [← hop.2] at he
    rw [ht, hother (Nat.ne_of_lt (h.grown.outer_lt ho he))]
    exact (h.outer top rest ho e he).congr (hfree e.id) (htext e.id)
  · intro e he hp
    rw [ho'] at he
    exact ht ▸ hfree e.id (h.scope e he hp)

theorem Tidy.adopt_markup (h : Tidy free Pending r) (ho : r.opened = top :: rest) {content : Node}
    (hk : content.isText = false) (ht : r'.tree = r.tree.adopt top.id content)
    (ho' : r'.opened = r.opened) : Tidy free Growing r' := by
  have htop := h.grown.top_lt ho
  have hsame : ∀ c ∈ r.tree.childrenOf top.id,
      (r.tree.adopt top.id content).text? c = r.tree.text? c := fun c hc =>
    text?_adopt_of_lt top.id _ (lt_size_of_parentOf (h.grown.proper.forest.mem_childrenOf.1 hc))
  have hnew : (r.tree.adopt top.id content).text? r.tree.nodes.size = none := by
    rw [text?_adopt_new htop, hk]
    rfl
  exact h.adopt hf ho ht ho'
    (((h.inner top rest ho).congr (hf r.tree top.id content top.id htop) hsame).snoc hnew)

theorem Tidy.addLeaf (h : Tidy free Pending r) {content : Node} (hk : content.isText = false) :
    Tidy free Growing (addLeaf content r) := by
  rw [Reader.addLeaf]
  split
  · next ho =>
    exact { h with
      inner := fun top rest he => by simp [ho] at he }
  · next top rest ho => exact h.adopt_markup hf ho hk rfl rfl

theorem Tidy.addElement (h : Tidy free Pending r) {tag : Tag} {id : NodeId}
    (hr : (addElement o tag).run r = .ok id r') :
    Tidy free Growing r' ∧ r'.tree.childrenOf id = [] := by
  have hgrown : Grown r' := ((h.grown.push false hr).pop rfl).of_eq rfl rfl
  rw [run_addElement] at hr
  split at hr
  · simp at hr
  · split at hr
    · next top rest ho =>
      simp only [EStateM.Result.ok.injEq] at hr
      obtain ⟨rfl, rfl⟩ := hr
      exact ⟨h.adopt_markup hf ho rfl rfl rfl,
        childrenOf_adopt_new (h.grown.top_lt ho) _⟩
    · next ho =>
      split at hr
      · simp at hr
      · next hroot =>
        simp only [EStateM.Result.ok.injEq] at hr
        obtain ⟨rfl, rfl⟩ := hr
        have hsize : r.tree.nodes.size = 0 := by
          have hs := h.grown.spine
          rw [ho, List.map_nil] at hs
          rcases hs with hs | hs
          · exact hs.2
          · simp [hroot] at hs
        have hnone (content : Node) (i : NodeId) :
            (r.tree.founded content).childrenOf i = [] :=
          (childrenOf_plant r.tree content i).trans
            (childrenOf_eq_nil_of_size_le (hsize ▸ Nat.zero_le i))
        refine ⟨⟨hgrown, fun i _ => ?_, ?_, ?_, ?_⟩, hnone _ _⟩
        · rw [hnone]
          exact (growing_nil _ _).toPending.placed
        · simp [ho]
        · simp [ho]
        · simp [ho]

variable (hd : o.dropBlanks = true ∨ ∀ t i, free t i)

include hd

/-- A text that is kept comes after markup, and if it is blank and not free, it is all there is or
another text leads. -/
theorem Tidy.flush_cases (h : Tidy free Growing r) (closing : Bool) :
    flush o closing r = { r with run := "" } ∨
      ∃ top rest t', r.opened = top :: rest ∧ r.run ≠ "" ∧
        t' = r.tree.adopt top.id (Node.text r.run) ∧
        flush o closing r = { r with run := "", tree := t' } ∧
        Growing (free t' top.id) t' (r.tree.childrenOf top.id) ∧
        (¬ free t' top.id → ∀ v, t'.text? r.tree.nodes.size = some v → Text.isBlank v →
          closing = true ∧ r.tree.childrenOf top.id = [] ∨
            LedByText t' (r.tree.childrenOf top.id) r.tree.nodes.size) := by
  rcases Reader.flush_cases o r closing with he | ⟨top, rest, ho, hrun, hk, he⟩
  · exact .inl he
  · have htop := h.grown.top_lt ho
    have hg := h.inner top rest ho
    have hlt {c : NodeId} (hc : c ∈ r.tree.childrenOf top.id) : c < r.tree.nodes.size :=
      lt_size_of_parentOf (h.grown.proper.forest.mem_childrenOf.1 hc)
    have hsame : ∀ c ∈ r.tree.childrenOf top.id,
        (r.tree.adopt top.id (Node.text r.run)).text? c = r.tree.text? c :=
      fun c hc => text?_adopt_of_lt top.id _ (hlt hc)
    have hfree := hf r.tree top.id (Node.text r.run) top.id htop
    refine .inr ⟨top, rest, _, ho, hrun, rfl, he, hg.congr hfree hsame, fun hn v hv hb => ?_⟩
    have hrv : r.run = v := by
      rw [text?_adopt_new htop] at hv
      exact Option.some.inj hv
    have hplain : top.preserves = false :=
      Bool.eq_false_iff.2 fun hp => hn (hfree (h.scope top (ho ▸ List.mem_cons_self) hp))
    have hdrop : o.dropBlanks = true := hd.resolve_right fun hall => hn (hall _ top.id)
    have hkeep : keepsBlank r.tree top.id closing = true := by
      simpa [hplain, hdrop, hrv, hb] using hk
    exact (led_of_keepsBlank htop hg (fun hm => Nat.lt_irrefl _ (hlt hm)) hkeep).imp_right
      fun hl => hl.congr hsame

/-- The run ends, and the element goes on with markup. -/
theorem Tidy.flush (h : Tidy free Growing r) : Tidy free Pending (Reader.flush o false r) := by
  rcases h.flush_cases hf hd false with he | ⟨top, rest, _, ho, hrun, rfl, he, hg, hled⟩
  · rw [he]
    exact (h.imp fun _ _ _ hg => hg.toPending).of_eq rfl rfl
  · rw [he]
    refine h.adopt hf ho rfl rfl (hg.snoc_text fun hn v hv hb => ?_)
    exact (hled hn v hv hb).resolve_left fun hc => by simp at hc

theorem Tidy.flush_closing (h : Tidy free Growing r) :
    Tidy free Placed (Reader.flush o true r) := by
  rcases h.flush_cases hf hd true with he | ⟨top, rest, _, ho, hrun, rfl, he, hg, hled⟩
  · rw [he]
    exact (h.imp fun _ _ _ hg => hg.toPending.placed).of_eq rfl rfl
  · rw [he]
    exact h.adopt hf ho rfl rfl
      (hg.snoc_last fun hn v hv hb => (hled hn v hv hb).imp_left And.right)

end Tidy

/-! ### Tokens -/

/-- An element that the token begins is free if its tag has the space in it preserved. -/
def Heeds (o : Options) (free : Tree → NodeId → Prop) (token : Token) : Prop :=
  ∀ tag, token = .startTag tag → ∀ r r' id, Grown r →
    (∀ e ∈ r.opened, e.preserves = true → free r.tree e.id) →
    preservesSpace tag ((r.opened.head?.map Opened.preserves).getD false) = .ok true →
    (addElement o tag).run r = .ok id r' → free r'.tree id

theorem Tidy.take {o : Options} {free : Tree → NodeId → Prop} (hf : Steady free)
    (hd : o.dropBlanks = true ∨ ∀ t i, free t i) {r r' : Reader} (h : Tidy free Growing r) {token : Token}
    (ht : Heeds o free token) (hr : (take o token).run r = .ok () r') : Tidy free Growing r' := by
  -- CDATA, comments and instructions share one argument.
  have leaf {content : Node} (hl : token.leaf? = some content) : Tidy free Growing r' := by
    simp only [run_take_leaf o r hl, EStateM.Result.ok.injEq, true_and] at hr
    exact hr ▸ (h.flush hf hd).addLeaf hf (isText_of_leaf? hl)
  cases token with
  | startTag tag =>
      have hgrown := h.grown.take hr
      obtain ⟨preserves, id, r₁, hp, hadd, rfl⟩ := run_take_startTag_eq_ok.1 hr
      have hflush := h.flush hf hd
      obtain ⟨htidy, hnone⟩ := hflush.addElement hf hadd
      refine htidy.open (fun he => ?_) hgrown hnone
      obtain rfl : preserves = true := he
      exact ht tag rfl _ _ id hflush.grown hflush.scope hp hadd
  | emptyTag tag =>
      obtain ⟨id, hadd⟩ := run_take_emptyTag_eq_ok.1 hr
      exact ((h.flush hf hd).addElement hf hadd).1
  | endTag name =>
      obtain ⟨top, rest, ho, -, rfl⟩ := run_take_endTag_eq_ok.1 hr
      exact (h.flush_closing hf hd).pop ho
  | text characters =>
      simp only [run_take_text, EStateM.Result.ok.injEq, true_and] at hr
      exact hr ▸ h.of_eq rfl rfl
  | reference name =>
      obtain ⟨c, -, rfl⟩ := run_take_reference_eq_ok.1 hr
      exact h.of_eq rfl rfl
  | cdata characters => exact leaf rfl
  | comment characters => exact leaf rfl
  | instruction target data => exact leaf rfl
  | declaration tag =>
      obtain ⟨standalone, rfl⟩ := exists_of_run_take_declaration hr
      exact h.of_eq rfl rfl
  | doctype =>
      simp only [run_take_doctype, EStateM.Result.ok.injEq, true_and] at hr
      exact hr ▸ h

theorem tidy_empty (free : Tree → NodeId → Prop) : Tidy free Growing {} where
  grown := grown_empty
  placed i _ := by
    have hnone : ({} : Reader).tree.childrenOf i = [] :=
      childrenOf_eq_nil_of_size_le (Nat.zero_le i)
    rw [hnone]
    exact (growing_nil _ _).toPending.placed
  inner := by simp
  outer := by simp
  scope := by simp

def Anywhere (_ : Tree) (_ : NodeId) : Prop :=
  True

theorem steady_anywhere : Steady Anywhere :=
  fun _ _ _ _ _ => id

theorem heeds_anywhere (o : Options) (token : Token) : Heeds o Anywhere token :=
  fun _ _ _ _ _ _ _ _ _ => trivial

/-- Without the attribute, space is preserved as around the tag. -/
theorem preservesSpace_eq {tag : Tag} {inherited preserves : Bool} (hp : tag.Unspaced)
    (h : preservesSpace tag inherited = .ok preserves) : preserves = inherited := by
  have hfind : (tag.attributes false).items.find? (·.key == "xml:space") = none := by
    rw [List.find?_eq_none]
    intro a ha
    simpa using hp a ha
  rw [preservesSpace, Tag.lookup, Readout.find?, hfind] at h
  cases hf : (tag.attributes false).flaw with
  | some flaw => simp [hf, Except.map] at h
  | none => simpa [hf, Except.map] using h.symm

/-- Where no element preserves space, a tag without the attribute begins none that does. -/
theorem heeds_of_plain {o : Options} {token : Token} (hp : ∀ tag ∈ token.tag?, tag.Unspaced) :
    Heeds o (fun _ _ => False) token := by
  rintro tag rfl r r' id _ hscope hspace _
  have hinherited := preservesSpace_eq (hp tag rfl) hspace
  cases ho : r.opened with
  | nil => simp [ho] at hinherited
  | cons top rest =>
      rw [ho] at hinherited hscope
      exact hscope top List.mem_cons_self hinherited.symm

end Reader

/-! ### Trees that are read -/

def Document.Unspaced (text : String) : Prop :=
  ∀ token ∈ (Token.scan (Token.withoutMark text.toList)).items, ∀ tag ∈ token.tag?,
    ∀ a ∈ (tag.attributes false).items, a.key ≠ "xml:space"

instance (text : String) : Decidable (Document.Unspaced text) :=
  inferInstanceAs (Decidable (∀ token ∈ (Token.scan (Token.withoutMark text.toList)).items,
    ∀ tag ∈ token.tag?, ∀ a ∈ (tag.attributes false).items, a.key ≠ "xml:space"))

namespace Tree

/-- A tree as reading leaves it in which no space is preserved. -/
structure Whole (t : Tree) : Prop where
  proper : Proper t
  laid : t.root = none ∧ t.nodes.size = 0 ∨ t.root = some 0 ∧ Laid t [0] 0 t.nodes.size
  content : Legible t
  settled : ∀ i, Settled t (t.childrenOf i)

structure Entire (t : Tree) : Prop where
  proper : Proper t
  laid : t.root = none ∧ t.nodes.size = 0 ∨ t.root = some 0 ∧ Laid t [0] 0 t.nodes.size
  content : Legible t
  apart : ∀ i, Apart t (t.childrenOf i)

theorem Whole.entire {t : Tree} (h : Whole t) : Entire t :=
  ⟨h.proper, h.laid, h.content, fun i => (h.settled i).apart⟩

/-- A blank text where it is not kept: the space around it is not preserved, it is not the only
child, and no other text leads. -/
def Dropped (t : Tree) (i : NodeId) : Prop :=
  ∃ p v, t.parentOf i = some p ∧ ¬ t.Preserved p ∧ t.text? i = some v ∧ Text.isBlank v = true ∧
    t.childrenOf p ≠ [i] ∧ ¬ LedByText t (t.childrenOf p) i

theorem Dropped.text?_ne_none {t : Tree} {i : NodeId} (h : t.Dropped i) : t.text? i ≠ none := by
  obtain ⟨_, _, _, _, hv, _⟩ := h
  simp [hv]

theorem Dropped.lt_size {t : Tree} {i : NodeId} (h : t.Dropped i) : i < t.nodes.size := by
  obtain ⟨_, _, hp, _⟩ := h
  exact lt_size_of_parentOf hp

theorem not_dropped {t : Tree} (hf : Forest t)
    (h : ∀ p, Placed (t.Preserved p) t (t.childrenOf p)) (i : NodeId) : ¬ t.Dropped i := by
  rintro ⟨p, v, hp, hs, hv, hb, hone, hled⟩
  exact (((h p).settled hs).blank i (hf.mem_childrenOf.2 hp) v hv hb).elim hone hled

end Tree

section Parse

variable {o : Reader.Options} {text : String} {d : Document} (h : Document.parse o text = .ok d)

include h

theorem Document.laid_of_parse : d.tree.root = none ∧ d.tree.nodes.size = 0 ∨
    d.tree.root = some 0 ∧ Tree.Laid d.tree [0] 0 d.tree.nodes.size := by
  obtain ⟨r, hr, ho, rfl⟩ := Document.exists_of_parse h Reader.grown_empty
    fun _ _ _ _ hr hrun => hr.take hrun
  have hspine := hr.spine
  rw [ho] at hspine
  exact hspine

theorem Document.placed_of_parse {free : Tree → NodeId → Prop}
    (hd : o.dropBlanks = true ∨ ∀ t i, free t i) (hf : Reader.Steady free)
    (hs : ∀ token ∈ (Token.scan (Token.withoutMark text.toList)).items, Reader.Heeds o free token)
    (i : NodeId) :
    Tree.Placed (free d.tree i) d.tree (d.tree.childrenOf i) := by
  obtain ⟨r, hr, ho, rfl⟩ := Document.exists_of_parse h (Reader.tidy_empty free)
    fun token ht _ _ hr hrun => hr.take hf hd (hs token ht) hrun
  exact hr.placed i (by simp [ho])

end Parse

theorem Document.entire_of_parse {o : Reader.Options} {text : String} {d : Document}
    (h : Document.parse o text = .ok d) : d.tree.Entire where
  proper := Document.proper_of_parse h
  laid := Document.laid_of_parse h
  content := Document.legible_of_parse h
  apart i :=
    -- No two texts are side by side, wherever blank ones may stand.
    (Document.placed_of_parse h (.inr fun _ _ => trivial) Reader.steady_anywhere
      (fun token _ => Reader.heeds_anywhere o token) i).apart

theorem Document.whole_of_parse {text : String} {d : Document}
    (h : Document.parse {} text = .ok d) (hs : Document.Unspaced text) : d.tree.Whole where
  proper := Document.proper_of_parse h
  laid := Document.laid_of_parse h
  content := Document.legible_of_parse h
  settled i := (Document.placed_of_parse h (.inl rfl) (fun _ _ _ _ _ => id)
    (fun token ht => Reader.heeds_of_plain (hs token ht)) i).settled id

end BookMarkup
