import BookMarkup.Proofs.Document.Reading

/-!
Character data in a reading. All of it that stands in the root gets into the tree, in order, but for
runs of white space. White space is meant as Unicode has it, so that characters are lost as well
which markup does not take for blanks.
-/

namespace BookMarkup

/-! ### In tokens -/

namespace Token

def characters : Token → List Char
  | .text characters => characters.toList
  | .cdata characters => characters.toList
  | .reference name => (Text.Reference.inData name.toList).toList
  | _ => []

def depthAfter (depth : Nat) : Token → Nat
  | .startTag _ => depth + 1
  | .endTag _ => depth - 1
  | _ => depth

/-- The character data in the elements of a list of tokens, with `depth` elements open before it. -/
def characterData : (depth : Nat) → List Token → List Char
  | _, [] => []
  | depth, token :: tokens =>
    (if depth = 0 then [] else token.characters) ++ characterData (token.depthAfter depth) tokens

end Token

/-! ### In trees -/

def Node.characters (n : Node) : List Char :=
  if n.isCharacterData then n.value.toList else []

namespace Tree

def characters (t : Tree) : List Char :=
  t.nodes.toList.flatMap Node.characters

@[simp] theorem characters_plant (t : Tree) (content : Node) :
    (t.plant content).characters = t.characters ++ content.characters := by
  simp [characters, plant]
  rfl

theorem characters_update (t : Tree) (id : NodeId) {f : Node → Node}
    (h : ∀ n, (f n).characters = n.characters) : (t.update id f).characters = t.characters := by
  have hmap (ns : List Node) (k : Nat) :
      (ns.modify k f).flatMap Node.characters = ns.flatMap Node.characters := by
    induction ns generalizing k with
    | nil => simp
    | cons n ns ih => cases k <;> simp [h, ih]
  rw [characters, update, Array.toList_modify, hmap, characters]

@[simp] theorem characters_adopt (t : Tree) (parent : NodeId) (content : Node) :
    (t.adopt parent content).characters = t.characters ++ content.characters := by
  rw [adopt, characters_update, characters_update, characters_plant]
  · exact fun _ => rfl
  · exact fun _ => rfl

@[simp] theorem characters_founded (t : Tree) (content : Node) :
    (t.founded content).characters = t.characters ++ content.characters :=
  characters_plant t content

/-- Nodes that are laid out and all below them are the nodes with the numbers in between. -/
theorem Laid.flatMap_subtree {t : Tree} (hf : Forest t) {cs : List NodeId} {i j : NodeId}
    (h : Laid t cs i j) :
    cs.flatMap t.subtree ++ t.nodes.toList.drop j = t.nodes.toList.drop i := by
  induction h with
  | nil i => simp
  | @cons c k j cs hc inner rest ih ih' =>
      obtain ⟨n, hn⟩ := Option.isSome_iff_exists.1 (get?_isSome_iff.2 hc)
      have hget : t.nodes.toList[c] = n := by
        rw [Array.getElem_toList]
        exact (Array.getElem?_eq_some_iff.1 hn).2
      rw [childrenOf_of_get? hn] at ih
      rw [List.flatMap_cons, hf.subtree_eq hn, List.append_assoc, ih', List.cons_append, ih, ← hget,
        List.getElem_cons_drop]

theorem Laid.subtree_eq {t : Tree} (hf : Forest t) (h : Laid t [0] 0 t.nodes.size) :
    t.subtree 0 = t.nodes.toList := by
  have hall := h.flatMap_subtree hf
  rwa [← Array.length_toList, List.drop_length, List.append_nil, List.flatMap_singleton] at hall

/-- The text of the root is all character data of the tree, if the nodes are numbered in document
order. -/
theorem textContent_of_laid {t : Tree} (hf : Forest t) (h : Laid t [0] 0 t.nodes.size) :
    t.textContent 0 = .ok (String.ofList t.characters) := by
  have hjoin : (String.join ((t.nodes.toList.filter Node.isCharacterData).map Node.value)).toList =
      t.characters := by
    rw [String.toList_join, List.flatMap_map, characters]
    induction t.nodes.toList with
    | nil => rfl
    | cons n ns ih => by_cases hn : n.isCharacterData <;> simp [hn, ih, Node.characters]
  have hlt : 0 < t.nodes.size := (h.bounds List.mem_cons_self).2
  rw [hf.textContent_eq hlt, h.subtree_eq hf, ← hjoin, String.ofList_toList]

end Tree

/-! ### In readings -/

namespace Reader

open BookMarkup.Tree

/-- The character data read so far: outside the root none is kept. -/
def characters (r : Reader) : List Char :=
  r.tree.characters ++ if r.opened = [] then [] else r.run.toList

/-- What is kept of a text from which nothing but white space is left out, if anything is. -/
structure Spared (o : Options) (data kept : List Char) : Prop where
  sublist : kept.Sublist data
  visible : kept.filter (!Text.isSpace ·) = data.filter (!Text.isSpace ·)
  whole : o.dropBlanks = false → kept = data

section Spared

variable {o : Options} {data kept piece : List Char} {r r' : Reader}

theorem Spared.append (h : Spared o data kept) (piece : List Char) :
    Spared o (data ++ piece) (kept ++ piece) where
  sublist := h.sublist.append (List.Sublist.refl piece)
  visible := by rw [List.filter_append, List.filter_append, h.visible]
  whole ho := by rw [h.whole ho]

theorem Spared.drop (h : Spared o data (kept ++ piece)) (ho : o.dropBlanks = true)
    (hb : ∀ c ∈ piece, Text.isSpace c) : Spared o data kept where
  sublist := (List.sublist_append_left kept piece).trans h.sublist
  visible := by
    have hnone : piece.filter (!Text.isSpace ·) = [] :=
      List.filter_eq_nil_iff.2 fun c hc => by simp [hb c hc]
    rw [← h.visible, List.filter_append, hnone, List.append_nil]
  whole ho' := by simp [ho] at ho'

theorem characters_of_run (hr : r.run = "") : r.characters = r.tree.characters := by
  simp [characters, hr]

theorem Spared.flush (h : Spared o data r.characters) (closing : Bool) :
    Spared o data (flush o closing r).tree.characters := by
  rw [Reader.characters] at h
  rw [Reader.flush]
  cases ho : r.opened with
  | nil => simpa [ho] using h
  | cons top rest =>
      rw [ho, if_neg (List.cons_ne_nil top rest)] at h
      simp only
      split
      · next hr => simpa [hr] using h
      · split
        · simpa [Node.characters, Node.isCharacterData, Node.text] using h
        · next hk =>
          simp only [Bool.or_eq_true, Bool.not_eq_true', not_or, Bool.not_eq_false] at hk
          exact h.drop hk.1.1.1 (by simpa [Text.isBlank] using hk.1.2)

theorem characters_addElement {tag : Tag} {id : NodeId} (h : (addElement o tag).run r = .ok id r') :
    r'.tree.characters = r.tree.characters ∧ r'.opened = r.opened ∧ r'.run = r.run := by
  have helement (name : String) (attributes : Attributes) :
      Node.characters { Node.element name with attributes } = [] := rfl
  rw [run_addElement] at h
  split at h
  · simp at h
  · simp only at h
    split at h
    · obtain ⟨rfl, rfl⟩ := EStateM.Result.ok.inj h
      simp [helement]
    · split at h
      · simp at h
      · obtain ⟨rfl, rfl⟩ := EStateM.Result.ok.inj h
        simp [helement]

theorem characters_addLeaf (content : Node) (r : Reader) :
    (addLeaf content r).tree.characters =
      r.tree.characters ++ if r.opened.length = 0 then [] else content.characters := by
  rw [addLeaf]
  split
  · next ho => simp [ho]
  · next ho => simp [ho]

theorem Spared.addLeaf (h : Spared o data r.characters) (content : Node) :
    Spared o (data ++ if r.opened.length = 0 then [] else content.characters)
        (addLeaf content (Reader.flush o false r)).characters ∧
      (addLeaf content (Reader.flush o false r)).opened.length = r.opened.length := by
  refine ⟨?_, by simp⟩
  rw [characters_of_run (by simp), characters_addLeaf, opened_flush]
  exact (h.flush false).append _

theorem Spared.extend (h : Spared o data r.characters) {run : String} {piece : List Char}
    (hrun : run.toList = r.run.toList ++ piece) :
    Spared o (data ++ if r.opened.length = 0 then [] else piece)
      ({ r with run } : Reader).characters := by
  have hp := h.append (if r.opened.length = 0 then [] else piece)
  rw [characters] at hp ⊢
  cases ho : r.opened with
  | nil => simpa [ho] using hp
  | cons top rest => simpa [ho, hrun] using hp

/-- Markup ends the run and adds nothing to it. -/
theorem Spared.of_flush (h : Spared o data r.characters) {closing : Bool} (hrun : r'.run = "")
    (ht : r'.tree.characters = (Reader.flush o closing r).tree.characters) :
    Spared o (data ++ if r.opened.length = 0 then [] else []) r'.characters := by
  rw [ite_self, List.append_nil, characters_of_run hrun, ht]
  exact h.flush closing

/-- Each token adds the character data that it stands for, if it stands in the root. -/
theorem Spared.take {token : Token} (h : Spared o data r.characters)
    (hr : (take o token).run r = .ok () r') :
    Spared o (data ++ if r.opened.length = 0 then [] else token.characters) r'.characters ∧
      r'.opened.length = token.depthAfter r.opened.length := by
  have hsame : Spared o (data ++ if r.opened.length = 0 then [] else []) r.characters := by
    rwa [ite_self, List.append_nil]
  cases token with
  | startTag tag =>
      obtain ⟨preserves, id, r₁, -, hadd, rfl⟩ := run_take_startTag_eq_ok.1 hr
      obtain ⟨hc, ho, hrun⟩ := characters_addElement hadd
      exact ⟨h.of_flush (hrun.trans (run_flush o _ false)) hc,
        by simp [ho, opened_flush, Token.depthAfter]⟩
  | emptyTag tag =>
      obtain ⟨id, hadd⟩ := run_take_emptyTag_eq_ok.1 hr
      obtain ⟨hc, ho, hrun⟩ := characters_addElement hadd
      exact ⟨h.of_flush (hrun.trans (run_flush o _ false)) hc,
        by simp [ho, opened_flush, Token.depthAfter]⟩
  | endTag name =>
      obtain ⟨top, rest, ho, -, rfl⟩ := run_take_endTag_eq_ok.1 hr
      rw [opened_flush] at ho
      exact ⟨h.of_flush (run_flush o r true) rfl, by simp [ho, Token.depthAfter]⟩
  | text characters =>
      obtain rfl := (EStateM.Result.ok.inj ((run_take_text o r characters).symm.trans hr)).2
      exact ⟨h.extend String.toList_append, rfl⟩
  | reference name =>
      obtain ⟨c, hc, rfl⟩ := run_take_reference_eq_ok.1 hr
      refine ⟨h.extend ?_, rfl⟩
      rw [Token.characters, hc, String.toList_push]
      rfl
  | cdata characters =>
      obtain rfl := (EStateM.Result.ok.inj ((run_take_cdata o r characters).symm.trans hr)).2
      exact h.addLeaf (Node.cdata characters)
  | comment characters =>
      obtain rfl := (EStateM.Result.ok.inj ((run_take_comment o r characters).symm.trans hr)).2
      exact h.addLeaf (Node.comment characters)
  | instruction target data =>
      obtain rfl := (EStateM.Result.ok.inj ((run_take_instruction o r target data).symm.trans hr)).2
      exact h.addLeaf (Node.instruction target data)
  | declaration tag =>
      obtain ⟨standalone, rfl⟩ := exists_of_run_take_declaration hr
      exact ⟨hsame, rfl⟩
  | doctype =>
      obtain rfl := (EStateM.Result.ok.inj ((run_take_doctype o r).symm.trans hr)).2
      exact ⟨hsame, rfl⟩

theorem Spared.forM_take {tokens : List Token} (h : Spared o data r.characters)
    (hr : (forM tokens (Reader.take o)).run r = .ok () r') :
    Spared o (data ++ Token.characterData r.opened.length tokens) r'.characters := by
  induction tokens generalizing data r with
  | nil =>
      obtain rfl : r = r' := by simpa using hr
      simpa [Token.characterData] using h
  | cons token tokens ih =>
      obtain ⟨r₁, hr₁, hr⟩ := run_forM_take_cons_eq_ok.1 hr
      obtain ⟨h₁, hd⟩ := h.take hr₁
      rw [Token.characterData, ← List.append_assoc, ← hd]
      exact ih h₁ hr

end Spared

end Reader

/-- The text of a root that is read is the character data in it, without some white space: nothing
that is visible is left out, and nothing at all unless blanks are dropped. What is left out are
blanks of markup as long as the root has no other white space. -/
theorem Document.textContent_of_parse {o : Reader.Options} {text : String} {d : Document}
    {root : NodeId} (h : Document.parse o text = .ok d) (hr : d.tree.root = some root) :
    let data := Token.characterData 0 (Token.scan (Token.withoutMark text.toList)).items
    ∃ content, d.tree.textContent root = .ok content ∧ Reader.Spared o data content.toList ∧
      ((∀ c ∈ data, Text.isSpace c → Text.isMarkupBlank c) →
        content.toList.filter (!Text.isMarkupBlank ·) = data.filter (!Text.isMarkupBlank ·)) := by
  intro data
  obtain ⟨r, hrun, rfl⟩ := Document.parse_ok.1 h
  obtain ⟨hrun, -, ho⟩ := Reader.run_takeAll_ok.1 hrun
  have hgrown : Reader.Grown r :=
    Reader.run_forM_take (fun _ _ _ _ hg hr => hg.take hr) Reader.grown_empty hrun
  have hspared : Reader.Spared o data r.tree.characters := by
    have hstart : Reader.Spared o [] ({} : Reader).characters := ⟨.slnil, rfl, fun _ => rfl⟩
    have hend := hstart.forM_take hrun
    rwa [List.nil_append, Reader.characters, if_pos ho, List.append_nil] at hend
  obtain ⟨rfl, hlaid⟩ : root = 0 ∧ Tree.Laid r.tree [0] 0 r.tree.nodes.size := by
    have hs := hgrown.spine
    rw [ho, List.map_nil] at hs
    have hr : r.tree.root = some root := hr
    rcases hs with ⟨hnone, -⟩ | ⟨hroot, hlaid⟩
    · simp [hnone] at hr
    · exact ⟨Option.some.inj (hr.symm.trans hroot), hlaid⟩
  refine ⟨_, Tree.textContent_of_laid hgrown.proper.forest hlaid, ?_⟩
  rw [String.toList_ofList]
  refine ⟨hspared, fun hblank => ?_⟩
  have heq : ∀ c ∈ data, (!Text.isMarkupBlank c) = !Text.isSpace c := fun c hc => by
    rw [Bool.eq_iff_iff.2 ⟨Text.isSpace_of_isMarkupBlank, hblank c hc⟩]
  rw [List.filter_congr heq, ← hspared.visible]
  exact List.filter_congr fun c hc => heq c (hspared.sublist.subset hc)

/-- The blank before the empty element is left out, and the reference stands for its character. -/
theorem Document.textContent_of_reference : ∃ d content,
    Document.parse {} "<a> <b/>&lt;</a>" = .ok d ∧ d.tree.textContent 0 = .ok content ∧
      content.toList.filter (!Text.isMarkupBlank ·) = ['<'] := by
  have hdata : Token.characterData 0
      (Token.scan (Token.withoutMark "<a> <b/>&lt;</a>".toList)).items = [' ', '<'] := by
    decide +kernel
  obtain ⟨d, hd, hroot⟩ : ∃ d, Document.parse {} "<a> <b/>&lt;</a>" = .ok d ∧
      d.tree.root = some 0 := exists_ok_of_any (by decide +kernel)
  obtain ⟨content, hcontent, -, hvisible⟩ := Document.textContent_of_parse hd hroot
  refine ⟨d, content, hd, hcontent, ?_⟩
  rw [hdata] at hvisible
  have hblank : ∀ c ∈ [' ', '<'], Text.isSpace c → Text.isMarkupBlank c := by
    rw [List.forall_mem_cons, List.forall_mem_singleton]
    decide
  exact (hvisible hblank).trans (by decide)

/-- A no-break space between tags is no blank of markup, but it is left out as white space. -/
theorem Document.textContent_of_no_break_space : ∃ d,
    Document.parse {} "<a>&#160;<b/></a>" = .ok d ∧ d.tree.root = some 0 ∧
      d.tree.textContent 0 = .ok "" ∧
      (Token.characterData 0 (Token.scan (Token.withoutMark "<a>&#160;<b/></a>".toList)).items).filter
        (!Text.isMarkupBlank ·) = ['\u00a0'] := by
  have hdata : (Token.characterData 0 (Token.scan (Token.withoutMark
      "<a>&#160;<b/></a>".toList)).items).filter (!Text.isMarkupBlank ·) = ['\u00a0'] := by
    decide +kernel
  obtain ⟨d, hd, hroot, hcontent⟩ : ∃ d, Document.parse {} "<a>&#160;<b/></a>" = .ok d ∧
      d.tree.root = some 0 ∧ (d.tree.textContent 0).toOption = some "" :=
    exists_ok_of_any (by decide +kernel)
  refine ⟨d, hd, hroot, ?_, hdata⟩
  cases ht : d.tree.textContent 0 with
  | error fault => simp [ht, Except.toOption] at hcontent
  | ok content => simpa [ht, Except.toOption] using hcontent

end BookMarkup
