import BookMarkup.Proofs.Document.Resuming
import BookMarkup.Proofs.Tree.Begun

/-!
A tree that was read, read once more. When the nodes before one of them have been read, what is read
next is that node: below the innermost open element if this is its parent, and as the root if it is
the first one. A text stays in the run until markup ends it, and what is written between lines is
dropped where space is not preserved.
-/

namespace BookMarkup

theorem Node.Alike.writtenLeaf_eq {n c : Node} (h : n.Alike c) :
    Layout.writtenLeaf n = Layout.writtenLeaf c := by
  rw [Layout.writtenLeaf, Layout.writtenLeaf, h.kind, h.name, h.value]

namespace Tree

/-! ### The nodes of a tree that was read -/

section Entire

variable {t : Tree} (h : Entire t)

include h

theorem Entire.laid_of_lt {i : NodeId} (hi : i < t.nodes.size) :
    t.root = some 0 ∧ Laid t [0] 0 t.nodes.size := by
  rcases h.laid with ⟨_, hs⟩ | hl
  · exact absurd (hs ▸ hi) (Nat.not_lt_zero i)
  · exact hl

theorem Entire.childrenOf_eq_nil {i : NodeId} {n : Node} (hn : t.get? i = some n)
    (he : n.isElement = false) : t.childrenOf i = [] := by
  refine List.eq_nil_iff_forall_not_mem.2 fun c hc => ?_
  obtain ⟨tag, ht⟩ := h.proper.element (h.proper.forest.mem_childrenOf.1 hc)
  rw [tag?_of_get? hn, Node.tag?, he] at ht
  simp at ht

theorem Entire.exists_content {i : NodeId} {n : Node} (hn : t.get? i = some n) :
    ∃ c, ReadContent c ∧ n.Alike c ∧ t.contentOf i = some { c.content with id := i } := by
  have hcontent : t.contentOf i = some n.content := by rw [contentOf, hn, Option.map_some]
  obtain ⟨c, hc, halike, heq⟩ := h.content.exists_alike hn
  exact ⟨c, hc, halike, heq ▸ hcontent⟩

theorem Entire.contentOf_element {i : NodeId} {n : Node} (hn : t.get? i = some n)
    (he : n.isElement = true) :
    t.contentOf i = some
      { ({ Node.element n.name with attributes := n.attributes } : Node).content with
        id := i } := by
  obtain ⟨c, hc, halike, hcontent⟩ := h.exists_content hn
  rw [halike.isElement_eq] at he
  cases hc with
  | element name attributes =>
      obtain rfl : n.name = name := halike.name
      obtain rfl : n.attributes = attributes := halike.attributes
      exact hcontent
  | text => simp [Node.isElement, Node.text] at he
  | leaf hl _ => simp [isElement_of_leaf? hl] at he

theorem Entire.contentOf_text {i : NodeId} {v : String} (hv : t.text? i = some v) :
    v ≠ "" ∧ t.contentOf i = some { (Node.text v).content with id := i } := by
  obtain ⟨n, hn, htext⟩ := Option.bind_eq_some_iff.1 hv
  obtain ⟨c, hc, halike, hcontent⟩ := h.exists_content hn
  rw [halike.isText_eq, halike.value] at htext
  cases hc with
  | element => simp [Node.isText, Node.element] at htext
  | text hv' =>
      obtain rfl : _ = v := Option.some.inj htext
      exact ⟨hv', hcontent⟩
  | leaf hl _ => simp [isText_of_leaf? hl] at htext

end Entire

/-- What is read again differs here: the element gets white space, or the text is dropped. -/
def Altered (t : Tree) (i : NodeId) : Prop :=
  t.Padded i ∨ t.Dropped i

def Unaltered (t : Tree) (i j : NodeId) : Prop :=
  ∀ k, i ≤ k → k < j → ¬ t.Altered k

theorem Unaltered.refl (t : Tree) (i : NodeId) : t.Unaltered i i :=
  fun _ hi hij => absurd hij (Nat.not_lt_of_le hi)

theorem Unaltered.append {t : Tree} {i j k : NodeId} (h : t.Unaltered i j) (h' : t.Unaltered j k) :
    t.Unaltered i k := by
  intro m hm hmk
  rcases Nat.lt_or_ge m j with hmj | hjm
  · exact h m hm hmj
  · exact h' m hjm hmk

theorem Unaltered.succ {t : Tree} {i j : NodeId} (h : t.Unaltered i j) (hj : ¬ t.Altered j) :
    t.Unaltered i (j + 1) :=
  h.append fun _ hm hmj => Nat.le_antisymm hm (Nat.lt_succ_iff.1 hmj) ▸ hj

theorem text?_begun {t : Tree} {i k : NodeId} (hi : i < k) : (t.begun k).text? i = t.text? i := by
  rw [text?_eq, contentOf_begun hi, ← text?_eq]

end Tree

namespace Reader

open BookMarkup.Tree

/-! ### The next node -/

/-- The node is what comes next: the run ends before it, and there is its place. -/
structure Due (o : Options) (t : Tree) (c : NodeId) (r : Reader) : Prop where
  flushed : flush o false r = { r with tree := t.begun c, run := "" }
  before : ∀ e ∈ r.opened, e.id < c
  place : r.opened = [] ∧ c = 0 ∨ ∃ top outer, r.opened = top :: outer ∧ t.parentOf c = some top.id

section Due

variable {o : Options} {t : Tree} (h : Entire t) {c : NodeId} {r : Reader} (hd : Due o t c r)

include h hd

theorem Due.addElement {n : Node} (hn : n.NamedUnder o) {xmlns : Option String}
    (hx : xmlns = none ∨ o.stripPrefixes = true)
    (hc : t.contentOf c = some
      { ({ Node.element n.name with attributes := n.attributes } : Node).content with id := c }) :
    (addElement o (n.head xmlns)).run (flush o false r) =
      .ok c { r with tree := t.begun (c + 1), run := "" } := by
  have hlt : c < t.nodes.size := by
    rw [← contentOf_isSome_iff, hc]
    rfl
  obtain ⟨hroot, hlaid⟩ := h.laid_of_lt hlt
  have hsize : (t.begun c).nodes.size = c :=
    (size_begun t c).trans (Nat.min_eq_left (Nat.le_of_lt hlt))
  have hname : o.nameOf (n.head xmlns).name = n.name := hn.kept
  rw [hd.flushed, run_addElement, hn.attributesOf_head hx]
  simp only [hname]
  rcases hd.place with ⟨ho, rfl⟩ | ⟨top, outer, ho, hp⟩
  · have hfounded := founded_begun hlaid hroot (h.proper.top hroot) hc
    simp only [ho, root_begun, if_true, hsize, hfounded]
  · have hadopt := adopt_begun h.proper.forest hlaid hp hc
    simp only [ho, hsize, hadopt]

theorem Due.addLeaf {content : Node} {top : Opened} {outer : List Opened}
    (ho : r.opened = top :: outer) (hc : t.contentOf c = some { content.content with id := c }) :
    Reader.addLeaf content (flush o false r) = { r with tree := t.begun (c + 1), run := "" } := by
  rcases hd.place with ⟨ho', _⟩ | ⟨top', outer', ho', hp⟩
  · rw [ho] at ho'
    exact absurd ho' (by simp)
  · obtain ⟨_, hlaid⟩ := h.laid_of_lt (lt_size_of_parentOf hp)
    have hadopt := adopt_begun h.proper.forest hlaid hp hc
    rw [hd.flushed, Reader.addLeaf]
    simp only [ho', hadopt]

end Due

/-! ### Between siblings -/

/-- What stands before each child of `p` and after the last one is no text: there is nothing, or
there are blanks between markup, and space is not preserved. -/
structure Silent (t : Tree) (p : NodeId) (lead : List Char) : Prop where
  plain : ∀ x ∈ lead, Token.isPlain x
  blank : ∀ x ∈ lead, Text.isSpace x
  between : lead = [] ∨ ¬ t.Preserved p ∧ t.childrenOf p ≠ [] ∧ ∀ c ∈ t.childrenOf p, t.text? c = none

/-- The nodes before `i` have been read, the siblings in `done` with them, but for a text that comes
last: it is still in the run. Below `p` nothing read so far has been altered. -/
inductive Ready (t : Tree) (p : NodeId) (done : List NodeId) (i : NodeId) (r : Reader) : Prop
  | markup (ht : r.tree = t.begun i) (hr : r.run = "") (hs : t.Unaltered (p + 1) i)
  | text {k : NodeId} (hk : k ∈ done.getLast?) (hv : t.text? k = some r.run) (hi : i = k + 1)
      (ht : r.tree = t.begun k) (hs : t.Unaltered (p + 1) k)

section Ready

variable {t : Tree} {p i : NodeId} {done cs : List NodeId}
  (hc : t.childrenOf p = done ++ cs)

include hc

theorem not_keepsBlank (hdone : Laid t done (p + 1) i) (hne : t.childrenOf p ≠ [])
    (hnone : ∀ c ∈ t.childrenOf p, t.text? c = none) :
    keepsBlank (t.begun i) p cs.isEmpty = false := by
  have hpi : p < i := hdone.le
  have hp : p < (t.begun i).nodes.size := by
    obtain ⟨c, hm⟩ := List.exists_mem_of_ne_nil _ hne
    rw [size_begun]
    exact Nat.lt_min.2 ⟨hpi, lt_size_of_mem_childrenOf hm⟩
  have hmem {j : NodeId} (hj : j ∈ (t.begun i).childrenOf p) : (t.begun i).text? j = none := by
    rw [childrenOf_begun hpi, List.mem_filter, decide_eq_true_eq] at hj
    rw [text?_begun hj.2]
    exact hnone j hj.1
  rw [Bool.eq_false_iff]
  intro hk
  rcases (keepsBlank_iff hp).1 hk with ⟨hempty, hnil⟩ | ⟨j, hj, v, hv⟩ | ⟨j, hj, v, hv⟩
  · -- At the end tag all children have been read.
    obtain rfl := List.isEmpty_iff.1 hempty
    rw [List.append_nil] at hc
    rw [childrenOf_begun hpi, hc, List.filter_eq_self.2] at hnil
    · exact hne (hc.trans hnil)
    · intro c hm
      simpa using (hdone.bounds hm).2
  · rw [hmem (List.mem_of_head? hj)] at hv
    simp at hv
  · rw [hmem (List.mem_of_getLast? hj)] at hv
    simp at hv

/-- A text that ends the run is kept though it is blank exactly if it is all there is or another
text leads. -/
theorem keepsBlank_text_iff (hp : p < t.nodes.size) (hsort : (t.childrenOf p).Pairwise (· < ·))
    (ha : Apart t (t.childrenOf p)) {k : NodeId} {v : String} (hk : k ∈ done.getLast?)
    (hpk : p < k) (hv : t.text? k = some v) :
    keepsBlank (t.begun k) p cs.isEmpty = true ↔
      t.childrenOf p = [k] ∨ LedByText t (t.childrenOf p) k := by
  obtain ⟨before, rfl⟩ := List.getLast?_eq_some_iff.1 hk
  rw [List.append_assoc, List.singleton_append] at hc
  rw [hc, List.pairwise_append, List.pairwise_cons] at hsort
  obtain ⟨_, ⟨hafter, _⟩, hbefore⟩ := hsort
  have hlt {j : NodeId} (hj : j ∈ before) : j < k := hbefore j hj k List.mem_cons_self
  have hread : (t.begun k).childrenOf p = before := by
    have hold : before.filter (· < k) = before :=
      List.filter_eq_self.2 fun j hj => decide_eq_true (hlt hj)
    rw [childrenOf_begun hpk, hc, List.filter_append, hold, List.filter_eq_nil_iff.2,
      List.append_nil]
    intro j hj
    rcases List.mem_cons.1 hj with rfl | hj
    · simp
    · simpa using Nat.le_of_lt (hafter j hj)
  have hp' : p < (t.begun k).nodes.size := by
    rw [size_begun]
    exact Nat.lt_min.2 ⟨hpk, hp⟩
  rw [keepsBlank_iff hp', hread, hc]
  constructor
  · rintro (⟨hclosing, rfl⟩ | ⟨j, hj, w, hw⟩ | ⟨j, hj, w, hw⟩)
    · exact .inl (by rw [List.isEmpty_iff.1 hclosing, List.nil_append])
    · obtain ⟨rest, rfl⟩ := List.head?_eq_some_iff.1 hj
      have hjk := hlt List.mem_cons_self
      exact .inr ⟨j, rest ++ k :: cs, w, rfl, Nat.ne_of_lt hjk, (text?_begun hjk).symm.trans hw⟩
    · -- Two texts would be side by side.
      obtain ⟨front, rfl⟩ := List.getLast?_eq_some_iff.1 hj
      have hjk : j < k := hlt (by simp)
      have hpair : [j, k] <:+: t.childrenOf p := ⟨front, cs, by simp [hc]⟩
      rw [text?_begun hjk] at hw
      rcases ha j k hpair with hno | hno
      · simp [hno] at hw
      · simp [hno] at hv
  · rintro (hone | ⟨j, rest, w, hj, hjk, hw⟩)
    · cases before with
      | nil =>
          obtain rfl : cs = [] := (List.cons.inj hone).2
          exact .inl ⟨rfl, rfl⟩
      | cons j before => simp at hone
    · cases before with
      | nil => exact absurd (List.cons.inj hj).1.symm hjk
      | cons i before =>
          obtain rfl : i = j := (List.cons.inj hj).1
          exact .inr (.inl ⟨i, rfl, w, (text?_begun (hlt List.mem_cons_self)).trans hw⟩)

end Ready

/-- In an element, a run that is not empty is dropped if it is blank and neither preserved nor kept. -/
theorem flush_eq {o : Options} (hd : o.dropBlanks = true) {r : Reader} {top : Opened}
    {outer : List Opened} (ho : r.opened = top :: outer) (hrun : r.run ≠ "") (closing : Bool) :
    flush o closing r =
      if Text.isBlank r.run && !top.preserves && !keepsBlank r.tree top.id closing then
        { r with run := "" }
      else { r with run := "", tree := r.tree.adopt top.id (Node.text r.run) } := by
  rw [flush, ho]
  simp only [hrun, hd, if_false]
  cases Text.isBlank r.run <;> cases top.preserves <;> cases keepsBlank r.tree top.id closing <;> rfl

section Flush

variable {o : Options} (hd : o.dropBlanks = true) {t : Tree} {i : NodeId} {done cs : List NodeId}
  {r : Reader} {top : Opened} {outer : List Opened} (ho : r.opened = top :: outer)
  (hp : top.preserves = true ↔ t.Preserved top.id) (hc : t.childrenOf top.id = done ++ cs)

include hd ho hp hc

theorem flush_lead (ht : r.tree = t.begun i) (hr : r.run = "") (hdone : Laid t done (top.id + 1) i)
    {lead : List Char} (hs : Silent t top.id lead) :
    flush o cs.isEmpty { r with run := r.run ++ String.ofList lead } =
      { r with tree := t.begun i, run := "" } := by
  rw [hr, String.empty_append]
  by_cases hlead : String.ofList lead = ""
  · rw [hlead, ← ht, flush]
    simp [ho]
  · obtain ⟨hspace, hne, hnone⟩ := hs.between.resolve_left fun hnil => hlead (by rw [hnil])
    have hpreserves : top.preserves = false := Bool.eq_false_iff.2 (mt hp.1 hspace)
    have hblank : Text.isBlank (String.ofList lead) = true := by
      rw [Text.isBlank, String.toList_ofList, List.all_eq_true]
      exact hs.blank
    have hdrop := not_keepsBlank hc hdone hne hnone
    rw [flush_eq hd (r := { r with run := String.ofList lead }) ho hlead]
    simp only [hblank, hpreserves, ht, hdrop, Bool.not_false, Bool.and_self, if_true]

/-- A text in the run becomes the node that it is, unless it is dropped. -/
theorem flush_text (h : Entire t) {k : NodeId} (hk : k ∈ done.getLast?)
    (hv : t.text? k = some r.run) (ht : r.tree = t.begun k) :
    (flush o cs.isEmpty r = { r with tree := t.begun (k + 1), run := "" } ∧ ¬ t.Dropped k) ∨
      (flush o cs.isEmpty r = { r with tree := t.begun k, run := "" } ∧ t.Dropped k) := by
  have hkc : k ∈ t.childrenOf top.id := hc ▸ List.mem_append_left cs (List.mem_of_getLast? hk)
  have hparent := h.proper.forest.mem_childrenOf.1 hkc
  obtain ⟨hne, hcontent⟩ := h.contentOf_text hv
  obtain ⟨_, hlaid⟩ := h.laid_of_lt (lt_size_of_parentOf hparent)
  have hkeep := keepsBlank_text_iff hc (h.proper.forest.parent_lt hparent)
    (hlaid.pairwise_childrenOf top.id) (h.apart top.id) hk (hlaid.lt_of_mem_childrenOf hkc) hv
  have hcond : (Text.isBlank r.run && !top.preserves &&
      !keepsBlank r.tree top.id cs.isEmpty) = true ↔ t.Dropped k := by
    rw [ht, Bool.and_eq_true, Bool.and_eq_true, Bool.not_eq_true', Bool.not_eq_true',
      ← Bool.not_eq_true, ← Bool.not_eq_true, hkeep, hp, not_or]
    constructor
    · rintro ⟨⟨hb, hs⟩, hone, hled⟩
      exact ⟨top.id, r.run, hparent, hs, hv, hb, hone, hled⟩
    · rintro ⟨p, v, hp, hs, hv', hb, hone, hled⟩
      obtain rfl : top.id = p := Option.some.inj (hparent.symm.trans hp)
      obtain rfl : r.run = v := Option.some.inj (hv.symm.trans hv')
      exact ⟨⟨hb, hs⟩, hone, hled⟩
  rw [flush_eq hd ho hne]
  by_cases hdrop : t.Dropped k
  · rw [if_pos (hcond.2 hdrop), ← ht]
    exact .inr ⟨rfl, hdrop⟩
  · rw [if_neg (mt hcond.1 hdrop), ht, adopt_begun h.proper.forest hlaid hparent hcontent]
    exact .inl ⟨rfl, hdrop⟩

end Flush

/-- The reader stands among the children of `top`: those in `done` have been read, with all nodes
before `i`, and those in `cs` come next, with `lead` before each of them and at the end. -/
structure Among (t : Tree) (top : Opened) (lead : List Char) (done cs : List NodeId) (i : NodeId)
    (r : Reader) : Prop where
  opened : ∃ outer, r.opened = top :: outer
  before : ∀ e ∈ r.opened, e.id ≤ top.id
  scope : top.preserves = true ↔ t.Preserved top.id
  children : t.childrenOf top.id = done ++ cs
  laid : Laid t done (top.id + 1) i
  silent : Silent t top.id lead
  ready : Ready t top.id done i r

section Among

variable {o : Options} (hd : o.dropBlanks = true) {t : Tree} (h : Entire t) {top : Opened}
  {lead : List Char} {done cs : List NodeId} {c i k : NodeId} {r : Reader}

include h

include hd in
/-- Whatever stands between two siblings, the run ends with the nodes before the second one, unless
a text is dropped. -/
theorem Among.flush (ha : Among t top lead done cs i r) :
    let led := { r with run := r.run ++ String.ofList lead }
    (Reader.flush o cs.isEmpty led = { r with tree := t.begun i, run := "" } ∧
      t.Unaltered (top.id + 1) i) ∨
    ∃ k ∈ done.getLast?, t.Dropped k ∧ i = k + 1 ∧
      Reader.flush o cs.isEmpty led = { r with tree := t.begun k, run := "" } := by
  obtain ⟨outer, ho⟩ := ha.opened
  cases ha.ready with
  | markup ht hr hs =>
      exact .inl ⟨flush_lead hd ho ha.scope ha.children ht hr ha.laid ha.silent, hs⟩
  | @text k hk hv hik ht hs =>
      have hlead : lead = [] := ha.silent.between.resolve_right fun hnone => by
        have hkc : k ∈ t.childrenOf top.id :=
          ha.children ▸ List.mem_append_left cs (List.mem_of_getLast? hk)
        simp [hnone.2.2 k hkc] at hv
      simp only [hlead, String.ofList_nil, String.append_empty]
      rcases flush_text hd ho ha.scope ha.children h hk hv ht with ⟨hflush, hkeep⟩ | ⟨hflush, hdrop⟩
      · refine .inl ⟨hik ▸ hflush, hik ▸ hs.succ ?_⟩
        rintro (hp | hdrop)
        · obtain ⟨n, hn, _⟩ := text?_eq_some_iff.1 hv
          have he : n.isElement = false := Bool.eq_false_iff.2 fun he => by
            simp [text?_eq_none_of_isElement hn he] at hv
          exact hp.nonempty (h.childrenOf_eq_nil hn he)
        · exact hkeep hdrop
      · exact .inr ⟨k, hk, hdrop, hik, hflush⟩

theorem Among.parentOf (ha : Among t top lead done (c :: cs) i r) :
    t.parentOf c = some top.id := by
  rw [← h.proper.forest.mem_childrenOf, ha.children]
  exact List.mem_append_right done List.mem_cons_self

theorem Among.lt (ha : Among t top lead done (c :: cs) i r) : top.id < c := by
  have hparent := ha.parentOf h
  obtain ⟨_, hlaid⟩ := h.laid_of_lt (lt_size_of_parentOf hparent)
  exact hlaid.lt_of_mem_childrenOf (h.proper.forest.mem_childrenOf.2 hparent)

/-- Before a text the run is empty, since no other text is beside it. -/
theorem Among.before_text (ha : Among t top lead done (c :: cs) c r) {v : String}
    (hv : t.text? c = some v) :
    lead = [] ∧ r.tree = t.begun c ∧ r.run = "" ∧ t.Unaltered (top.id + 1) c := by
  have hlead : lead = [] := ha.silent.between.resolve_right fun hnone => by
    have hm := h.proper.forest.mem_childrenOf.2 (ha.parentOf h)
    simp [hnone.2.2 c hm] at hv
  refine ⟨hlead, ?_⟩
  cases ha.ready with
  | markup ht hr hs => exact ⟨ht, hr, hs⟩
  | @text k hk hkv _ _ _ =>
      obtain ⟨before, rfl⟩ := List.getLast?_eq_some_iff.1 hk
      have hpair : [k, c] <:+: t.childrenOf top.id := ⟨before, cs, by simp [ha.children]⟩
      -- Two texts would be side by side.
      rcases h.apart top.id k c hpair with hno | hno
      · simp [hno] at hkv
      · simp [hno] at hv

/-- The next child has been read. -/
theorem Among.next (ha : Among t top lead done (c :: cs) c r)
    (inner : Laid t (t.childrenOf c) (c + 1) k) {tree : Tree} {run : String}
    (hr : Ready t top.id (done ++ [c]) k { r with tree, run }) :
    Among t top lead (done ++ [c]) cs k { r with tree, run } where
  opened := ha.opened
  before := ha.before
  scope := ha.scope
  children := by rw [ha.children, List.append_assoc, List.singleton_append]
  laid := ha.laid.append (.cons (lt_size_of_parentOf (ha.parentOf h)) inner (.nil k))
  silent := ha.silent
  ready := hr

end Among

end Reader

end BookMarkup
