import BookMarkup.Proofs.Document.Astray
import BookMarkup.Proofs.Document.Regrown

/-!
Reading what is written. The written form of a tree that was read is read as the same tree: the
indentation is dropped again, and whatever was kept the first time is kept again. The proof goes
along the numbers of the nodes, sibling by sibling; each sibling with all below it takes up the next
numbers. Only where space is preserved indentation is not dropped, and only where it is not preserved
any more a blank is: from the first such place on another tree is read.
-/

namespace BookMarkup

def Tree.Named (t : Tree) : Prop :=
  ∀ n ∈ t.nodes.toList, n.isElement = true → n.Named

instance (t : Tree) : Decidable t.Named :=
  inferInstanceAs (Decidable (∀ n ∈ t.nodes.toList, n.isElement = true → n.Named))

def Tree.NamedUnder (o : Reader.Options) (t : Tree) : Prop :=
  ∀ n ∈ t.nodes.toList, n.isElement = true → n.NamedUnder o

theorem Tree.NamedUnder.get? {o : Reader.Options} {t : Tree} (h : t.NamedUnder o) {i : NodeId}
    {n : Node} (hn : t.get? i = some n) (he : n.isElement = true) : n.NamedUnder o :=
  h n (Array.mem_toList_iff.2 (Array.mem_of_getElem? hn)) he

theorem Tree.Named.under {t : Tree} (h : t.Named) (o : Reader.Options) : t.NamedUnder o :=
  fun n hn he => (h n hn he).under o

/-- Where no name has a prefix, no space is preserved. -/
theorem Tree.Entire.not_preserved {t : Tree} (h : t.Entire) (hnamed : t.Named) (i : NodeId) :
    ¬ t.Preserved i := by
  intro hp
  induction hp with
  | own hs =>
      obtain ⟨n, hn, hs⟩ := Option.bind_eq_some_iff.1 hs
      obtain ⟨c, hc, halike, _⟩ := h.exists_content hn
      cases he : n.isElement with
      | true =>
          rw [(hnamed n (Array.mem_toList_iff.2 (Array.mem_of_getElem? hn)) he).space?_eq_none] at hs
          simp at hs
      | false =>
          have hempty := hc.attributes_eq (halike.isElement_eq.symm.trans he)
          rw [Node.space?, halike.attributes, hempty] at hs
          simp [Attributes.get?, Attributes.empty] at hs
  | around _ _ _ ih => exact ih

theorem Tree.text?_of_not_mixes {t : Tree} {ids : List NodeId} (h : t.mixes ids = false)
    (id : NodeId) (hid : id ∈ ids) : t.text? id = none := by
  refine text?_eq_none_iff.2 fun n hn => ?_
  have hdata : n.isCharacterData = false := by simpa [hn] using List.any_eq_false.1 h id hid
  exact (Bool.or_eq_false_iff.1 hdata).1

/-! ### Written nodes -/

namespace Layout

variable (l : Layout) {t : Tree} (levels depth : Nat) (spread : Bool) (xmlns : Option String)
  {id : NodeId} {n : Node}

/-- What stands before a child, and before an end tag. -/
def lead (l : Layout) (spread : Bool) (depth : Nat) : List Char :=
  if spread then l.line depth else []

theorem writtenNode_leaf (hn : t.get? id = some n) (he : n.isElement = false) :
    l.writtenNode t (levels + 1) depth spread xmlns id = writtenLeaf n := by
  rw [writtenNode, hn]
  simp [he]

theorem writtenNode_empty (hn : t.get? id = some n) (he : n.isElement = true)
    (hc : n.children = []) :
    l.writtenNode t (levels + 1) depth spread xmlns id = writtenHead n xmlns ++ ['/', '>'] := by
  rw [writtenNode, hn]
  simp [he, hc]

theorem writtenNode_element (hn : t.get? id = some n) (he : n.isElement = true)
    (hc : n.children ≠ []) :
    l.writtenNode t (levels + 1) depth spread xmlns id =
      writtenHead n xmlns ++ '>' :: (n.children.flatMap (fun c =>
        l.lead (spread && !t.mixes n.children) (depth + 1) ++
          l.writtenNode t levels (depth + 1) (spread && !t.mixes n.children) none c) ++
        (l.lead (spread && !t.mixes n.children) depth ++ '<' :: '/' :: (n.name.toList ++ ['>']))) := by
  rw [writtenNode, hn]
  simp [he, hc, lead, Tree.mixes]

end Layout

namespace Reader

open BookMarkup.Tree Token Text

theorem isPlain_of_mem_lead {l : Layout} {spread : Bool} {depth : Nat} {x : Char}
    (hx : x ∈ l.lead spread depth) : isPlain x ∧ isSpace x := by
  rw [Layout.lead] at hx
  split at hx
  · rcases List.mem_cons.1 hx with rfl | hx
    · exact ⟨rfl, rfl⟩
    · obtain rfl := List.eq_of_mem_replicate hx
      exact ⟨rfl, rfl⟩
  · simp at hx

theorem silent_lead (l : Layout) {t : Tree} {p : NodeId} {wide : Bool} (depth : Nat)
    (hne : t.childrenOf p ≠ []) (hw : wide = true ↔ t.Spread p) (hp : ¬ t.Padded p) :
    Silent t p (l.lead wide depth) := by
  refine ⟨fun x hx => (isPlain_of_mem_lead hx).1, fun x hx => (isPlain_of_mem_lead hx).2, ?_⟩
  cases wide with
  | false => exact .inl rfl
  | true =>
      have hspread : t.Spread p := hw.1 rfl
      exact .inr ⟨fun hs => hp ⟨hs, hspread, hne⟩, hne,
        text?_of_not_mixes (hspread p (.refl p))⟩

/-! ### Elements and their children -/

theorem unaltered_of_childrenOf_eq_nil {t : Tree} {c : NodeId} (hnil : t.childrenOf c = [])
    (htext : t.text? c = none) : t.Unaltered c (c + 1) := by
  refine (Unaltered.refl t c).succ ?_
  rintro (hp | hdrop)
  · exact hp.nonempty hnil
  · exact hdrop.text?_ne_none htext

/-- From what is written for the siblings, with `lead` before each, the nodes from `i` up to `j` are
read, unless one of them is altered: then another tree is read. -/
def Returns (o : Options) (l : Layout) (t : Tree) (cs : List NodeId) (i j : NodeId) : Prop :=
  ∀ (size levels depth : Nat) (spread : Bool) (lead rest : List Char) (top : Opened)
    (done : List NodeId) (r : Reader), j ≤ i + levels → (spread = true ↔ t.Spread top.id) →
    Among t top lead done cs i r →
    let written := cs.flatMap (fun c => lead ++ l.writtenNode t levels depth spread none c) ++ rest
    (∃ tree run, Among t top lead (done ++ cs) [] j { r with tree, run } ∧
      resume o size written r = resume o size rest { r with tree, run }) ∨
    (∃ k, t.Altered k) ∧ Strays o size t written r

section Element

variable {o : Options} (hd : o.dropBlanks = true) {l : Layout} {t : Tree} (h : Entire t)
  {levels : Nat} {c k : NodeId} {n : Node} (hn : t.get? c = some n)
  (inner : Laid t (t.childrenOf c) (c + 1) k) (hlevels : k ≤ c + levels)

include inner hlevels

theorem exists_levels : ∃ m, levels = m + 1 ∧ k ≤ c + 1 + m := by
  have hck : c < k := inner.le
  cases levels with
  | zero => exact absurd hck (Nat.not_lt_of_le hlevels)
  | succ m => exact ⟨m, rfl, hlevels.trans_eq (Nat.add_right_comm c m 1)⟩

include h hn

theorem writtenNode_of_leaf (he : n.isElement = false) (depth : Nat) (spread : Bool) :
    k = c + 1 ∧ l.writtenNode t levels depth spread none c = Layout.writtenLeaf n := by
  obtain ⟨m, rfl, _⟩ := exists_levels inner hlevels
  rw [h.childrenOf_eq_nil hn he] at inner
  rw [Layout.writtenNode_leaf l m depth spread none hn he]
  cases inner
  exact ⟨rfl, rfl⟩

omit inner hlevels

/-- Markup that is written is read as markup, after what the run has become. -/
theorem exists_of_markup (hnamed : t.NamedUnder o) (htext : t.text? c = none) {r : Reader}
    {top : Opened} {outer : List Opened} (ho : r.opened = top :: outer) (size m depth : Nat)
    (spread : Bool) (rest : List Char) :
    ∃ content rest' r', content.isText = false ∧
      r'.tree = (flush o false r).tree.adopt top.id content ∧
      resume o size (l.writtenNode t (m + 1) depth spread none c ++ rest) r =
        resume o size rest' r' := by
  obtain ⟨content, hread, halike, _⟩ := h.exists_content hn
  cases hread with
  | element name attributes =>
      have he : n.isElement = true := halike.isElement_eq
      have hnode := hnamed.get? hn he
      obtain ⟨content, id, r', hadd, hopened, hkind, htree⟩ : ∃ content id r',
          (addElement o (n.head none)).run (flush o false r) = .ok id r' ∧ r'.opened = r.opened ∧
          content.isText = false ∧ r'.tree = (flush o false r).tree.adopt top.id content := by
        rw [run_addElement, hnode.attributesOf_head (.inl rfl)]
        simp only [opened_flush, ho]
        exact ⟨_, _, _, rfl, rfl, rfl, rfl⟩
      by_cases hnil : n.children = []
      · rw [Layout.writtenNode_empty l m depth spread none hn he hnil, List.append_assoc]
        exact ⟨content, rest, r', hkind, htree, resume_emptyTag hnode hadd hopened⟩
      · rw [Layout.writtenNode_element l m depth spread none hn he hnil, List.append_assoc,
          List.cons_append]
        exact ⟨content, _, { r' with opened := _ :: r.opened }, hkind, htree,
          resume_startTag hnode (.inl rfl) hadd hopened⟩
  | @leaf token content hl hf =>
      have he : n.isElement = false := halike.isElement_eq.trans (isElement_of_leaf? hl)
      have htree : (addLeaf content (flush o false r)).tree =
          (flush o false r).tree.adopt top.id content := by
        rw [addLeaf, opened_flush, ho]
      rw [Layout.writtenNode_leaf l m depth spread none hn he, halike.writtenLeaf_eq]
      exact ⟨content, rest, _, isText_of_leaf? hl, htree, resume_leaf hl hf⟩
  | text hv =>
      rw [text?, hn, Option.bind_some, halike.isText_eq] at htext
      simp [Node.isText, Node.text] at htext

/-- After white space that is preserved as a text, markup is read instead of its node. -/
theorem strays_of_preserved (hnamed : t.NamedUnder o) (htext : t.text? c = none) {r : Reader}
    {top : Opened} {outer : List Opened} (ho : r.opened = top :: outer) (hp : top.preserves = true)
    (hrun : r.run ≠ "") (hlt : top.id < c) (hsize : r.tree.nodes.size = c) (size m depth : Nat)
    (spread : Bool) (rest : List Char) :
    Strays o size t (l.writtenNode t (m + 1) depth spread none c ++ rest) r := by
  obtain ⟨content, rest', r', _, htree, hread⟩ :=
    exists_of_markup (l := l) h hn hnamed htext ho size m depth spread rest
  have hflush : flush o false r =
      { r with tree := r.tree.adopt top.id (Node.text r.run), run := "" } := by
    rw [flush, ho]
    simp [hrun, hp]
  rw [← hsize] at hlt htext
  have hnew : (r.tree.adopt top.id (Node.text r.run)).text? r.tree.nodes.size = some r.run :=
    text?_adopt_new hlt _
  have hkept : r'.tree.text? r.tree.nodes.size = some r.run := by
    rw [htree, hflush, text?_adopt_of_lt, hnew]
    exact (size_adopt ..) ▸ Nat.lt_succ_self _
  exact (strays_of_lasting (lasting_text _ _) hkept (by simp [htext])).of_eq hread

/-- Where a text was dropped, the markup after it gets its number. -/
theorem strays_of_dropped (hnamed : t.NamedUnder o) (htext : t.text? c = none) {r : Reader}
    {top : Opened} {outer : List Opened} (ho : r.opened = top :: outer) (hlt : top.id < k)
    (hdrop : t.Dropped k) (hflush : flush o false r = { r with tree := t.begun k, run := "" })
    (size m depth : Nat) (spread : Bool) (rest : List Char) :
    Strays o size t (l.writtenNode t (m + 1) depth spread none c ++ rest) r := by
  obtain ⟨content, rest', r', hkind, htree, hread⟩ :=
    exists_of_markup (l := l) h hn hnamed htext ho size m depth spread rest
  have hsize : (t.begun k).nodes.size = k :=
    (size_begun t k).trans (Nat.min_eq_left (Nat.le_of_lt hdrop.lt_size))
  have hnew : k < r'.tree.nodes.size ∧ r'.tree.text? k = none := by
    have hmarkup := text?_adopt_new (hsize.symm ▸ hlt) content
    rw [hsize, hkind] at hmarkup
    rw [htree, hflush, size_adopt, hsize]
    exact ⟨Nat.lt_succ_self k, hmarkup⟩
  exact (strays_of_lasting (lasting_markup k) hnew fun hm => hdrop.text?_ne_none hm.2).of_eq hread

omit hn

/-- In a padded element the white space before the first child becomes a text. -/
theorem strays_of_padded (hnamed : t.NamedUnder o) (hpad : t.Padded c)
    (inner : Laid t (t.childrenOf c) (c + 1) k) (hlevels : k ≤ c + 1 + levels) (top : Opened)
    {outer : List Opened} (hid : top.id = c) (hp : top.preserves = true) {r : Reader}
    (ho : r.opened = top :: outer) (ht : r.tree = t.begun (c + 1)) (hrun : r.run = "")
    (size depth : Nat) (rest : List Char) :
    Strays o size t ((t.childrenOf c).flatMap (fun c =>
      l.lead true depth ++ l.writtenNode t levels depth true none c) ++ rest) r := by
  obtain ⟨d, ds, hds⟩ := List.exists_cons_of_ne_nil hpad.nonempty
  rw [hds] at inner
  -- The first child has the next number, which the text will have.
  obtain ⟨hlt, hdk, rfl⟩ : d < t.nodes.size ∧ d < k ∧ d = c + 1 := by
    cases inner with
    | cons hlt inner after => exact ⟨hlt, Nat.lt_of_lt_of_le inner.le after.le, rfl⟩
  obtain ⟨m, rfl⟩ : ∃ m, levels = m + 1 := Nat.exists_eq_succ_of_ne_zero (by
    rintro rfl
    exact absurd hdk (Nat.not_lt_of_le hlevels))
  obtain ⟨n, hn⟩ := Option.isSome_iff_exists.1 (get?_isSome_iff.2 hlt)
  have htext : t.text? (c + 1) = none :=
    text?_of_not_mixes (hpad.spread c (.refl c)) (c + 1) (hds ▸ List.mem_cons_self)
  have hsize : r.tree.nodes.size = c + 1 := by
    rw [ht, size_begun]
    exact Nat.min_eq_left (Nat.le_of_lt hlt)
  let led : Reader := { r with run := r.run ++ String.ofList (l.lead true depth) }
  have hled : led.run ≠ "" := by simp [led, hrun, Layout.lead, Layout.line]
  rw [hds, List.flatMap_cons, List.append_assoc, List.append_assoc]
  have hstrays := strays_of_preserved (l := l) h hn hnamed htext (r := led) ho hp hled
    (hid ▸ Nat.lt_succ_self c) hsize size m depth true
  exact (hstrays _).of_eq (resume_plain fun x hx => (isPlain_of_mem_lead hx).1)

include hd in
/-- At the end tag all below the element has been read, unless its last child is dropped. -/
theorem close_or_strays {top : Opened} {outer : List Opened} {lead : List Char} {r : Reader}
    (ho : r.opened = top :: outer) (hout : ∀ e ∈ outer, e.id < top.id) (htag : IsQName top.tag)
    (hkept : o.nameOf top.tag = top.tag) (ha : Among t top lead (t.childrenOf top.id) [] k r)
    (size : Nat) (rest : List Char) :
    let close := lead ++ '<' :: '/' :: (top.tag.toList ++ '>' :: rest)
    (resume o size close r =
        resume o size rest { r with tree := t.begun k, run := "", opened := outer } ∧
      t.Unaltered (top.id + 1) k) ∨
    (∃ k, t.Altered k) ∧ Strays o size t close r := by
  intro close
  let led : Reader := { r with run := r.run ++ String.ofList lead }
  have hclose : resume o size close r =
      resume o size rest { flush o true led with opened := outer } :=
    (resume_plain ha.silent.plain).trans (resume_endTag ho htag hkept)
  rcases ha.flush hd h with ⟨hflush, hun⟩ | ⟨last, hlast, hdrop, _, hflush⟩
  · have hflush : flush o true led = { r with tree := t.begun k, run := "" } := hflush
    rw [hflush] at hclose
    exact .inl ⟨hclose, hun⟩
  · have hm : last ∈ t.childrenOf top.id := List.mem_of_getLast? hlast
    have hlt : top.id < last := (ha.laid.bounds hm).1
    -- The element is closed without its last child.
    have hclosed : top.id < (t.begun last).nodes.size ∧ top.id ∉ outer.map Opened.id ∧
        last ∉ (t.begun last).childrenOf top.id := by
      refine ⟨?_, fun hin => ?_, ?_⟩
      · rw [size_begun]
        exact Nat.lt_min.2 ⟨hlt, lt_size_of_mem_childrenOf hm⟩
      · obtain ⟨e, he, heq⟩ := List.mem_map.1 hin
        exact Nat.ne_of_lt (hout e he) heq
      · rw [childrenOf_begun hlt]
        simp
    have hflush : flush o true led = { r with tree := t.begun last, run := "" } := hflush
    rw [hflush] at hclose
    refine .inr ⟨⟨last, .inr hdrop⟩, Strays.of_eq ?_ hclose⟩
    exact strays_of_lasting (lasting_closed top.id (last ∉ ·)) hclosed fun hn => hn.2.2 hm

include hn inner hlevels

variable {r : Reader} (size depth : Nat) (spread : Bool) (rest : List Char)

include hd in
/-- Markup that comes next is due, unless the text before it is dropped. -/
theorem due_or_strays (hnamed : t.NamedUnder o) {done cs : List NodeId} {top : Opened}
    {lead : List Char} (ha : Among t top lead done (c :: cs) c r) (htext : t.text? c = none) :
    let led := { r with run := r.run ++ String.ofList lead }
    Due o t c led ∧ t.Unaltered (top.id + 1) c ∨
      (∃ k, t.Altered k) ∧
        Strays o size t (l.writtenNode t levels depth spread none c ++ rest) led := by
  intro led
  obtain ⟨outer, ho⟩ := ha.opened
  rcases ha.flush hd h with ⟨hflush, hun⟩ | ⟨last, hlast, hdrop, _, hflush⟩
  · have hlt := ha.lt h
    exact .inl ⟨⟨hflush, fun e he => Nat.lt_of_le_of_lt (ha.before e he) hlt,
      .inr ⟨top, outer, ho, ha.parentOf h⟩⟩, hun⟩
  · obtain ⟨m, rfl, _⟩ := exists_levels inner hlevels
    have htop : top.id < last := (ha.laid.bounds (List.mem_of_getLast? hlast)).1
    exact .inr ⟨⟨last, .inr hdrop⟩,
      strays_of_dropped h hn hnamed htext (r := led) ho htop hdrop hflush size m depth spread rest⟩

variable (ih : Returns o l t (t.childrenOf c) (c + 1) k)

include hd ih

/-- An element that is due is read with all below it, if its children are. -/
theorem resume_element {xmlns : Option String} (hx : xmlns = none ∨ o.stripPrefixes = true)
    (he : n.isElement = true) (hnamed : t.NamedUnder o) (hdue : Due o t c r)
    (hspace : (r.opened.head?.map Opened.preserves).getD false = true ↔
      ∃ p, t.parentOf c = some p ∧ t.Preserved p)
    (hspread : spread = true ↔ ∀ p, t.parentOf c = some p → t.Spread p) :
    (resume o size (l.writtenNode t levels depth spread xmlns c ++ rest) r =
        resume o size rest { r with tree := t.begun k, run := "" } ∧ t.Unaltered c k) ∨
      (∃ k, t.Altered k) ∧
        Strays o size t (l.writtenNode t levels depth spread xmlns c ++ rest) r := by
  have hchildren := childrenOf_of_get? hn
  have hnode := hnamed.get? hn he
  have htext : t.text? c = none := text?_eq_none_of_isElement hn he
  have hadded := hdue.addElement h hnode hx (h.contentOf_element hn he)
  obtain ⟨m, rfl, hm⟩ := exists_levels inner hlevels
  by_cases hnil : n.children = []
  · left
    obtain rfl : k = c + 1 := by
      rw [hchildren, hnil] at inner
      cases inner
      rfl
    refine ⟨?_, unaltered_of_childrenOf_eq_nil (hchildren.trans hnil) htext⟩
    rw [Layout.writtenNode_empty l m depth spread xmlns hn he hnil, List.append_assoc]
    exact resume_emptyTag hnode hadded rfl
  · let wide := spread && !t.mixes n.children
    have hwritten := Layout.writtenNode_element l m depth spread xmlns hn he hnil
    rw [← hchildren] at hnil hwritten
    have hwide : wide = true ↔ t.Spread c := by
      rw [spread_iff, hchildren, ← hspread, Bool.and_eq_true, Bool.not_eq_true', and_comm]
    let preserves := n.space?.getD ((r.opened.head?.map Opened.preserves).getD false)
    have hpreserves : preserves = true ↔ t.Preserved c := by
      rw [preserved_iff, space?_of_get? hn, ← hspace]
      cases hs : n.space? with
      | none => simp [preserves, hs]
      | some told => simp [preserves, hs]
    let opened : Opened := ⟨c, n.name, preserves⟩
    let begun : Reader :=
      { r with tree := t.begun (c + 1), run := "", opened := opened :: r.opened }
    let body := (t.childrenOf c).flatMap fun c =>
      l.lead wide (depth + 1) ++ l.writtenNode t m (depth + 1) wide none c
    let close := l.lead wide depth ++ '<' :: '/' :: (n.name.toList ++ '>' :: rest)
    have hstart : resume o size (l.writtenNode t (m + 1) depth spread xmlns c ++ rest) r =
        resume o size (body ++ close) begun := by
      calc
        _ = resume o size (Layout.writtenHead n xmlns ++ '>' :: (body ++ close)) r := by
          rw [hwritten]
          simp only [body, close, wide, hchildren, List.append_assoc, List.cons_append,
            List.nil_append]
        _ = resume o size (body ++ close) begun := resume_startTag hnode hx hadded rfl
    by_cases hpad : t.Padded c
    · have hw : wide = true := hwide.2 hpad.spread
      have hbody : body = (t.childrenOf c).flatMap fun c =>
          l.lead true (depth + 1) ++ l.writtenNode t m (depth + 1) true none c := by
        simp only [body, hw]
      refine .inr ⟨⟨c, .inl hpad⟩, Strays.of_eq ?_ hstart⟩
      rw [hbody]
      exact strays_of_padded h hnamed hpad inner hm opened rfl
        (hpreserves.2 hpad.preserved) (r := begun) rfl rfl rfl size (depth + 1) close
    · have hsilent (depth : Nat) : Silent t c (l.lead wide depth) :=
        silent_lead l depth hnil hwide hpad
      have hbefore : ∀ e ∈ begun.opened, e.id ≤ opened.id := by
        intro e he
        rcases List.mem_cons.1 he with rfl | he
        · exact Nat.le_refl c
        · exact Nat.le_of_lt (hdue.before e he)
      have hbegun : Among t opened (l.lead wide (depth + 1)) [] (t.childrenOf c) (c + 1) begun :=
        { opened := ⟨r.opened, rfl⟩
          before := hbefore
          scope := hpreserves
          children := rfl
          laid := .nil _
          silent := hsilent (depth + 1)
          ready := .markup rfl rfl (.refl t _) }
      rcases ih size m (depth + 1) wide (l.lead wide (depth + 1)) close opened [] begun hm hwide
          hbegun with ⟨tree, run, ha, hread⟩ | ⟨hex, hstrays⟩
      · have hbody : resume o size (l.writtenNode t (m + 1) depth spread xmlns c ++ rest) r =
            resume o size close { begun with tree, run } := hstart.trans hread
        -- Before the end tag stands the lead of the element itself.
        rcases close_or_strays hd h rfl hdue.before hnode.tag hnode.kept
            { ha with silent := hsilent depth } size rest with ⟨hclose, hun⟩ | ⟨hex, hstrays⟩
        · have hc : ¬ t.Altered c := by
            rintro (hp | hdrop)
            · exact hpad hp
            · exact hdrop.text?_ne_none htext
          exact .inl ⟨hbody.trans hclose, ((Unaltered.refl t c).succ hc).append hun⟩
        · exact .inr ⟨hex, hstrays.of_eq hbody⟩
      · exact .inr ⟨hex, Strays.of_eq hstrays hstart⟩

/-- A child that comes next is read, or if it is a text, it is in the run. -/
theorem resume_child (hnamed : t.NamedUnder o) {done cs : List NodeId} {top : Opened}
    {lead : List Char} (hspread : spread = true ↔ t.Spread top.id)
    (ha : Among t top lead done (c :: cs) c r) :
    let written := lead ++ l.writtenNode t levels depth spread none c ++ rest
    (∃ tree run, Among t top lead (done ++ [c]) cs k { r with tree, run } ∧
      resume o size written r = resume o size rest { r with tree, run }) ∨
    (∃ k, t.Altered k) ∧ Strays o size t written r := by
  intro written
  obtain ⟨outer, ho⟩ := ha.opened
  obtain ⟨content, hread, halike, hcontent⟩ := h.exists_content hn
  have hparent := ha.parentOf h
  let led : Reader := { r with run := r.run ++ String.ofList lead }
  have hlead : resume o size written r =
      resume o size (l.writtenNode t levels depth spread none c ++ rest) led := by
    simp only [written, List.append_assoc]
    exact resume_plain ha.silent.plain
  have hmarkup (htext : t.text? c = none) :=
    due_or_strays hd h hn inner hlevels size depth spread rest hnamed ha htext (l := l)
  cases hread with
  | element name attributes =>
      have he : n.isElement = true := halike.isElement_eq
      rcases hmarkup (text?_eq_none_of_isElement hn he) with ⟨hdue, hun⟩ | ⟨hex, hstrays⟩
      · rcases resume_element hd h hn inner hlevels size depth spread rest ih (.inl rfl) he hnamed
            hdue (by simp [ho, ha.scope, hparent]) (by simp [hspread, hparent]) with
          ⟨hread, hun'⟩ | ⟨hex, hstrays⟩
        · exact .inl ⟨t.begun k, "", ha.next h inner (.markup rfl rfl (hun.append hun')),
            hlead.trans hread⟩
        · exact .inr ⟨hex, hstrays.of_eq hlead⟩
      · exact .inr ⟨hex, hstrays.of_eq hlead⟩
  | @leaf token content hl hf =>
      have he : n.isElement = false := halike.isElement_eq.trans (isElement_of_leaf? hl)
      have htext : t.text? c = none := by
        rw [text?, hn, Option.bind_some, halike.isText_eq, isText_of_leaf? hl]
        rfl
      rcases hmarkup htext with ⟨hdue, hun⟩ | ⟨hex, hstrays⟩
      · obtain ⟨rfl, hwritten⟩ := writtenNode_of_leaf h hn inner hlevels (l := l) he depth spread
        have hun' := unaltered_of_childrenOf_eq_nil (h.childrenOf_eq_nil hn he) htext
        refine .inl ⟨t.begun (c + 1), "",
          ha.next h inner (.markup rfl rfl (hun.append hun')), hlead.trans ?_⟩
        rw [hwritten, halike.writtenLeaf_eq, resume_leaf hl hf, hdue.addLeaf h ho hcontent]
      · exact .inr ⟨hex, hstrays.of_eq hlead⟩
  | @text value hv =>
      have he : n.isElement = false := halike.isElement_eq
      obtain ⟨rfl, hwritten⟩ := writtenNode_of_leaf h hn inner hlevels (l := l) he depth spread
      have htext : t.text? c = some value := by
        rw [text?, hn, Option.bind_some, halike.isText_eq, halike.value]
        rfl
      obtain ⟨rfl, ht, hrun, hun⟩ := ha.before_text h htext
      have hvalue : Layout.writtenLeaf (Node.text value) = escapeData value := rfl
      refine .inl ⟨r.tree, value, ha.next h inner (.text (k := c) (by simp) htext rfl ht hun),
        hlead.trans ?_⟩
      rw [hwritten, halike.writtenLeaf_eq, hvalue, resume_escapeData]
      simp only [led, hrun, String.ofList_nil, String.empty_append]

end Element

/-- Siblings are read one after the other, each with all below it. -/
theorem returns_of_laid {o : Options} (hd : o.dropBlanks = true) {l : Layout} {t : Tree}
    (h : Entire t) (hnamed : t.NamedUnder o) {cs : List NodeId} {i j : NodeId}
    (hl : Laid t cs i j) : Returns o l t cs i j := by
  induction hl with
  | nil i =>
      intro size levels depth spread lead rest top done r _ _ ha
      exact .inl ⟨r.tree, r.run, by rwa [List.append_nil], rfl⟩
  | @cons c k j cs hc inner after ih ih' =>
      intro size levels depth spread lead rest top done r hlevels hspread ha
      obtain ⟨n, hn⟩ := Option.isSome_iff_exists.1 (get?_isSome_iff.2 hc)
      have hck : c ≤ k := Nat.le_of_succ_le inner.le
      let written (c : NodeId) := lead ++ l.writtenNode t levels depth spread none c
      have hcons : (c :: cs).flatMap written ++ rest = written c ++ (cs.flatMap written ++ rest) := by
        rw [List.flatMap_cons, List.append_assoc]
      rcases resume_child hd h hn inner (Nat.le_trans after.le hlevels) size depth spread
          (cs.flatMap written ++ rest) ih hnamed hspread ha with
        ⟨tree, run, ha', hread⟩ | ⟨hex, hstrays⟩
      · rcases ih' size levels depth spread lead rest top (done ++ [c]) { r with tree, run }
            (Nat.le_trans hlevels (Nat.add_le_add_right hck levels)) hspread ha' with
          ⟨tree', run', ha'', hread'⟩ | ⟨hex, hstrays⟩
        · rw [List.append_assoc, List.singleton_append] at ha''
          exact .inl ⟨tree', run', ha'', hcons ▸ hread.trans hread'⟩
        · exact .inr ⟨hex, hstrays.of_eq (hcons ▸ hread)⟩
      · exact .inr ⟨hex, hstrays.of_eq (hcons ▸ rfl)⟩

/-- A tree that is written is read as the same tree, unless a node of it is altered. -/
theorem resume_writtenTree {o : Options} (hd : o.dropBlanks = true) (l : Layout) {t : Tree}
    (h : Entire t) (hnamed : t.NamedUnder o) {xmlns : Option String}
    (hx : xmlns = none ∨ o.stripPrefixes = true) (size : Nat) {r : Reader} (ho : r.opened = [])
    (ht : r.tree = {}) :
    ((∃ run, resume o size (l.writtenTree t xmlns) r = .ok () { r with tree := t, run }) ∧
        ∀ i, ¬ t.Altered i) ∨
      (∃ i, t.Altered i) ∧ Strays o size t (l.writtenTree t xmlns) r := by
  have beyond {i : NodeId} (hi : t.nodes.size ≤ i) : ¬ t.Altered i := by
    rintro (hp | hdrop)
    · exact hp.nonempty (childrenOf_eq_nil_of_size_le hi)
    · exact Nat.not_lt_of_le hi hdrop.lt_size
  rcases h.laid with ⟨hroot, hsize⟩ | ⟨hroot, hlaid⟩
  · have hempty : t = {} := ext_get? hroot fun i => get?_eq_none_iff.2 (hsize ▸ Nat.zero_le i)
    refine .inl ⟨⟨r.run, ?_⟩, fun i => beyond (hsize ▸ Nat.zero_le i)⟩
    rw [Layout.writtenTree, hroot, hempty, ← ht]
    exact resume_nil ho
  · obtain ⟨n, hn, he⟩ := h.proper.forest.elementRoot hroot
    have hsize : t.nodes.size ≠ 0 := Nat.ne_of_gt (lt_size_of_get? hn)
    have htop : t.parentOf 0 = none := h.proper.top hroot
    obtain ⟨k, inner, hk⟩ : ∃ k, Laid t (t.childrenOf 0) (0 + 1) k ∧ k = t.nodes.size := by
      cases hlaid with
      | @cons _ k _ _ _ inner after =>
          refine ⟨k, inner, ?_⟩
          cases after
          rfl
    have hdue : Due o t 0 r := by
      refine ⟨?_, by simp [ho], .inl ⟨ho, rfl⟩⟩
      rw [flush, ho, begun_zero, ← ht]
    have hlevels : k ≤ 0 + t.nodes.size := Nat.le_of_eq (hk.trans (Nat.zero_add _).symm)
    have hwritten : l.writtenTree t xmlns =
        l.writtenNode t t.nodes.size 0 true xmlns 0 ++ ['\n'] := by
      rw [Layout.writtenTree, hroot]
    rw [hwritten]
    rcases resume_element hd h hn inner hlevels size 0 true ['\n']
        (returns_of_laid (l := l) hd h hnamed inner) hx he hnamed hdue (by simp [ho, htop])
        (by simp [htop]) with ⟨hread, hun⟩ | hstrays
    · refine .inl ⟨⟨"\n", ?_⟩, fun i => ?_⟩
      · rw [hread, hk, h.proper.forest.begun_size hsize]
        exact resume_line ho
      · rcases Nat.lt_or_ge i t.nodes.size with hi | hi
        · exact hun i (Nat.zero_le i) (hk ▸ hi)
        · exact beyond hi
    · exact .inr hstrays

end Reader

/-! ### Documents -/

theorem Token.withoutMark_of_head? {text : List Char} (h : ∀ c ∈ text.head?, c = '<') :
    withoutMark text = text := by
  rw [withoutMark.eq_def]
  split
  · exact absurd (h '\ufeff' rfl) (by decide)
  · rfl

theorem Layout.head?_writtenTree (l : Layout) {t : Tree} (h : t.Entire) (xmlns : Option String) :
    ∀ c ∈ (l.writtenTree t xmlns).head?, c = '<' := by
  intro c hc
  rw [writtenTree] at hc
  cases hroot : t.root with
  | none => simp [hroot] at hc
  | some root =>
      obtain ⟨n, hn, he⟩ := h.proper.forest.elementRoot hroot
      obtain ⟨levels, hlevels⟩ :=
        Nat.exists_eq_add_of_le' (Nat.zero_lt_of_lt (Tree.lt_size_of_get? hn))
      simp only [hroot, hlevels] at hc
      by_cases hnil : n.children = []
      · rw [writtenNode_empty l levels 0 true xmlns hn he hnil, writtenHead] at hc
        simpa [eq_comm] using hc
      · rw [writtenNode_element l levels 0 true xmlns hn he hnil, writtenHead] at hc
        simpa [eq_comm] using hc

theorem Layout.head?_written (l : Layout) {d : Document} (h : d.tree.Entire) :
    ∀ c ∈ (l.written d).head?, c = '<' := by
  intro c hc
  rw [written] at hc
  split at hc
  · rw [Reader.writtenDeclaration_append, List.head?_cons, Option.mem_some] at hc
    exact hc.symm
  · exact l.head?_writtenTree h d.xmlns c hc

/-- What is read from a written document: the tree, and of the declaration what is written in it. If
a node of the tree is altered, another tree is read, or none. -/
theorem Document.parse_print_cases {o : Reader.Options} (hd : o.dropBlanks = true) (l : Layout)
    {d : Document} (h : d.tree.Entire) (hnamed : d.tree.NamedUnder o)
    (hx : d.xmlns = none ∨ o.stripPrefixes = true) :
    (Document.parse o (l.print d) = .ok
        { tree := d.tree
          standalone := if l.declaration then
            d.standalone.map fun value => String.ofList (Text.escapeValue value) else none } ∧
        ∀ i, ¬ d.tree.Altered i) ∨
      (∃ i, d.tree.Altered i) ∧
        ∀ d', Document.parse o (l.print d) = .ok d' → d'.tree ≠ d.tree := by
  have hmark : Token.withoutMark (l.print d).toList = l.written d := by
    rw [Layout.toList_print]
    exact Token.withoutMark_of_head? (l.head?_written h)
  let size := Text.byteLength (l.written d)
  let first : Reader :=
    { standalone := if l.declaration then
        d.standalone.map fun value => String.ofList (Text.escapeValue value) else none
      run := if l.declaration then "\n" else "" }
  have hfirst : Reader.resume o size (l.written d) {} =
      Reader.resume o size (l.writtenTree d.tree d.xmlns) first := by
    simp only [first]
    rw [Layout.written]
    split
    · rw [Reader.resume_declaration, Option.or_none]
      rfl
    · rfl
  have hparse (d' : Document) : Document.parse o (l.print d) = .ok d' ↔
      ∃ r, Reader.resume o size (l.writtenTree d.tree d.xmlns) first = .ok () r ∧
        d' = r.document := by
    rw [Document.parse_ok, hmark, ← hfirst]
    rfl
  rcases Reader.resume_writtenTree hd l h hnamed hx size (r := first) rfl rfl with
    ⟨⟨run, hread⟩, hun⟩ | ⟨hex, hstrays⟩
  · exact .inl ⟨(hparse _).2 ⟨_, hread, rfl⟩, hun⟩
  · refine .inr ⟨hex, fun d' hd' => ?_⟩
    obtain ⟨r, hr, rfl⟩ := (hparse d').1 hd'
    exact hstrays r hr

theorem Document.parse_print_of_whole (l : Layout) {d : Document} (h : d.tree.Whole)
    (hnamed : d.tree.Named) : Document.parse {} (l.print d) = .ok
      { tree := d.tree
        standalone := if l.declaration then
          d.standalone.map fun value => String.ofList (Text.escapeValue value) else none } := by
  rcases Document.parse_print_cases rfl l h.entire (hnamed.under {}) (.inr rfl) with
    ⟨hread, _⟩ | ⟨⟨i, hpadded | hdropped⟩, _⟩
  · exact hread
  · exact absurd hpadded.preserved (h.entire.not_preserved hnamed i)
  · exact absurd hdropped (Tree.not_dropped h.proper.forest (fun p => (h.settled p).placed _) i)

/-- Writing a document that was read and reading it again gives the same tree, whatever the layout,
and whatever namespace is written for the root. -/
theorem Document.parse_print {text : String} {d : Document}
    (h : Document.parse {} text = .ok d) (hs : Document.Unspaced text) (hnamed : d.tree.Named)
    (l : Layout) (xmlns : Option String) :
    ∃ d', Document.parse {} (l.print { d with xmlns }) = .ok d' ∧ d'.tree = d.tree := by
  have hwhole : d.tree.Whole := Document.whole_of_parse h hs
  exact ⟨_, parse_print_of_whole l (d := { d with xmlns }) hwhole hnamed, rfl⟩

/-- A document with an element on lines of its own, text and markup side by side in it, a blank that
is kept, and an escaped character. -/
theorem Document.parse_print_mixed :
    ∃ d, Document.parse {} "<r><a k='&lt;'>b<c/> </a></r>" = .ok d ∧
      Document.Unspaced "<r><a k='&lt;'>b<c/> </a></r>" ∧ d.tree.Named ∧
      ∃ d', Document.parse {} (({} : Layout).print { d with xmlns := some "u" }) = .ok d' ∧
        d'.tree = d.tree := by
  let d : Document :=
    { tree :=
        { nodes := #[{ Node.element "r" with children := [1] },
            { Node.element "a" with
              id := 1, parent := some 0, children := [2, 3, 4],
              attributes := Attributes.empty.insert "k" "<" },
            { Node.text "b" with id := 2, parent := some 1 },
            { Node.element "c" with id := 3, parent := some 1 },
            { Node.text " " with id := 4, parent := some 1 }]
          root := some 0 } }
  have h : Document.parse {} "<r><a k='&lt;'>b<c/> </a></r>" = .ok d := by decide +kernel
  have hs : Document.Unspaced "<r><a k='&lt;'>b<c/> </a></r>" := by decide +kernel
  have hnamed : d.tree.Named := by decide +kernel
  exact ⟨d, h, hs, hnamed, Document.parse_print h hs hnamed {} (some "u")⟩

end BookMarkup
