import BookMarkup.Proofs.Rule.FormalListing
import BookMarkup.Proofs.Tree.Precedence

/-!
The rule for formal listings on its way. When some of the blocks are taken, each paragraph has lost
those that were in it and stands behind them, until the last of its children is taken and it goes
itself. Main statement: taking one more block, in document order, does just that. Blocks, their
paragraphs and formal paragraphs have different tags, so that no node plays two of these parts,
however deep formal listings are nested in code blocks.
-/

namespace BookMarkup.Rule

open BookMarkup.Tree

theorem noteIf_named_noteIf_named (asked asked' : Bool) (tag : String) :
    (noteIf asked ∘ named tag) ∘ (noteIf asked' ∘ named tag) =
      noteIf (asked' || asked) ∘ named tag := by
  funext n
  cases asked
  · cases asked' <;> rfl
  · cases asked'
    · rfl
    · exact annotated_annotated (named tag n)

def formalOf (t : Tree) (b : NodeId) : Option NodeId :=
  (t.parentOf b).bind t.parentOf

/-- What a paragraph has become in the list it stands in: the blocks taken from it, and then itself
unless nothing is left in it. Any other node is still there alone. -/
def unpackedBy (t : Tree) (taken : List NodeId) (c : NodeId) : List NodeId :=
  ((t.childrenOf c).filter fun b => b ∈ taken) ++
    if t.childrenOf c ≠ [] ∧ ∀ b ∈ t.childrenOf c, b ∈ taken then [] else [c]

def childrenBy (t : Tree) (taken : List NodeId) (i : NodeId) : List NodeId :=
  ((t.childrenOf i).filter fun c => c ∉ taken).flatMap (unpackedBy t taken)

def relabelBy (t : Tree) (taken : List NodeId) (i : NodeId) : Node → Node :=
  if taken.any fun b => formalOf t b == some i then
    noteIf (taken.any fun b => formalOf t b == some i && (t.parentOf b).any (asksNote t)) ∘
      named "example"
  else if i ∈ taken then named "programlisting"
  else if taken.any fun b => t.parentOf b == some i then roleless
  else id

structure Promoting (t : Tree) (taken : List NodeId) (u : Tree) : Prop where
  proper : Proper u
  root : u.root = t.root
  size : u.nodes.size = t.nodes.size
  contentOf : ∀ i, u.contentOf i = (t.contentOf i).map (relabelBy t taken i)
  childrenOf : ∀ i, u.childrenOf i = childrenBy t taken i

section Taken

variable {t u : Tree} {taken : List NodeId} {b p f i c : NodeId}

theorem Titled.formalOf_eq (hb : Titled t b f) : formalOf t b = some f := by
  obtain ⟨_, p, hp, _, hpf, _⟩ := hb
  rw [formalOf, hp, Option.bind_some, hpf]

theorem unpackedBy_of_not_taken (hc : ∀ b ∈ t.childrenOf c, b ∉ taken) :
    unpackedBy t taken c = [c] := by
  have hnot : ¬ (t.childrenOf c ≠ [] ∧ ∀ b ∈ t.childrenOf c, b ∈ taken) := by
    rintro ⟨hne, hall⟩
    obtain ⟨b, hb⟩ := List.exists_mem_of_ne_nil _ hne
    exact hc b hb (hall b hb)
  rw [unpackedBy, if_neg hnot, List.filter_eq_nil_iff.2 fun b hb => by simp [hc b hb],
    List.nil_append]

/-- Only what stands in the formal paragraph of a taken block is unpacked. -/
theorem childrenBy_of_formalOf_ne (ht : Proper t) (hi : ∀ b ∈ taken, formalOf t b ≠ some i) :
    childrenBy t taken i = (t.childrenOf i).filter fun c => c ∉ taken := by
  have hsame : ∀ c ∈ (t.childrenOf i).filter fun c => c ∉ taken, unpackedBy t taken c = [c] := by
    intro c hc
    refine unpackedBy_of_not_taken fun b hb hm => hi b hm ?_
    rw [formalOf, ht.forest.mem_childrenOf.1 hb, Option.bind_some,
      ht.forest.mem_childrenOf.1 (List.mem_filter.1 hc).1]
  rw [childrenBy, List.flatMap_congr hsame, List.flatMap_singleton']

section Titled

variable (htaken : ∀ b ∈ taken, ∃ f, Titled t b f)

include htaken

theorem titled_append (hb : Titled t b f) : ∀ c ∈ taken ++ [b], ∃ f, Titled t c f := by
  intro c hc
  rcases List.mem_append.1 hc with hc | hc
  · exact htaken c hc
  · exact ⟨f, List.mem_singleton.1 hc ▸ hb⟩

theorem not_mem_of_not_code (hi : ¬ IsCode t i) : i ∉ taken := by
  intro hm
  obtain ⟨f, hf⟩ := htaken i hm
  exact hi hf.1

theorem parentOf_ne_of_not_para (hi : t.tag? i ≠ some "para") (hb : b ∈ taken) :
    t.parentOf b ≠ some i := by
  intro hp
  obtain ⟨f, hf⟩ := htaken b hb
  exact hi (hf.para hp).1

theorem formalOf_ne_of_not_formalpara (hi : t.tag? i ≠ some "formalpara") (hb : b ∈ taken) :
    formalOf t b ≠ some i := by
  intro hp
  obtain ⟨f, hf⟩ := htaken b hb
  rw [hf.formalOf_eq, Option.some.injEq] at hp
  exact hi (hp ▸ hf.formalpara)

theorem childrenBy_of_not_formalpara (ht : Proper t) (hi : t.tag? i ≠ some "formalpara") :
    childrenBy t taken i = (t.childrenOf i).filter fun c => c ∉ taken :=
  childrenBy_of_formalOf_ne ht fun _ hb => formalOf_ne_of_not_formalpara htaken hi hb

theorem childrenBy_of_formalpara (ht : Proper t) (hi : t.tag? i = some "formalpara") :
    childrenBy t taken i = (t.childrenOf i).flatMap (unpackedBy t taken) := by
  rw [childrenBy, List.filter_eq_self.2 fun c hc => ?_]
  refine decide_eq_true fun hm => ?_
  refine parentOf_ne_of_not_para htaken (i := i) (by simp [hi]) hm (ht.forest.mem_childrenOf.1 hc)

theorem any_parentOf_of_not_para (hi : t.tag? i ≠ some "para") :
    (taken.any fun b => t.parentOf b == some i) = false :=
  List.any_eq_false.2 fun b hb => by simpa using parentOf_ne_of_not_para htaken hi hb

theorem any_formalOf_of_not_formalpara (hi : t.tag? i ≠ some "formalpara") :
    (taken.any fun b => formalOf t b == some i) = false :=
  List.any_eq_false.2 fun b hb => by simpa using formalOf_ne_of_not_formalpara htaken hi hb

theorem relabelBy_formalpara (hi : t.tag? i = some "formalpara") : relabelBy t taken i =
    if taken.any fun b => formalOf t b == some i then
      noteIf (taken.any fun b => formalOf t b == some i && (t.parentOf b).any (asksNote t)) ∘
        named "example"
    else id := by
  have hcode : i ∉ taken := not_mem_of_not_code htaken fun hc => hc.ne_of_tag? hi (by decide) rfl
  rw [relabelBy, if_neg hcode, any_parentOf_of_not_para htaken (by simp [hi])]
  rfl

theorem relabelBy_para (hi : t.tag? i = some "para") : relabelBy t taken i =
    if taken.any fun b => t.parentOf b == some i then roleless else id := by
  have hcode : i ∉ taken := not_mem_of_not_code htaken fun hc => hc.ne_of_tag? hi (by decide) rfl
  rw [relabelBy, any_formalOf_of_not_formalpara htaken (by simp [hi]), if_neg hcode]
  rfl

theorem relabelBy_code (hi : IsCode t i) : relabelBy t taken i =
    if i ∈ taken then named "programlisting" else id := by
  have hformal : t.tag? i ≠ some "formalpara" := fun ht => hi.ne_of_tag? ht (by decide) rfl
  have hpara : t.tag? i ≠ some "para" := fun ht => hi.ne_of_tag? ht (by decide) rfl
  rw [relabelBy, any_formalOf_of_not_formalpara htaken hformal,
    any_parentOf_of_not_para htaken hpara]
  rfl

end Titled

/-! ### One more block -/

section Step

variable (ht : Proper t) (hb : Titled t b f) (hbp : t.parentOf b = some p)

include ht hbp

theorem unpackedBy_append (hc : c ≠ p) :
    unpackedBy t (taken ++ [b]) c = unpackedBy t taken c := by
  have hmem : ∀ x ∈ t.childrenOf c, x ∈ taken ++ [b] ↔ x ∈ taken := by
    intro x hx
    have hxb : x ≠ b := by
      rintro rfl
      rw [ht.forest.mem_childrenOf, hbp, Option.some.injEq] at hx
      exact hc hx.symm
    simp [hxb]
  rw [unpackedBy, unpackedBy, List.filter_congr fun x hx => decide_eq_decide.2 (hmem x hx)]
  congr 1
  exact if_congr (and_congr_right fun _ => forall₂_congr hmem) rfl rfl

/-- Nothing happens elsewhere than in the paragraph and its formal paragraph. -/
theorem childrenBy_append (hpf : t.parentOf p = some f) (hip : i ≠ p) (hif : i ≠ f) :
    childrenBy t (taken ++ [b]) i = childrenBy t taken i := by
  rw [childrenBy, childrenBy]
  have hkept : (t.childrenOf i).filter (fun c => c ∉ taken ++ [b]) =
      (t.childrenOf i).filter fun c => c ∉ taken := by
    refine List.filter_congr fun c hc => ?_
    have hcb : c ≠ b := by
      rintro rfl
      rw [ht.forest.mem_childrenOf, hbp, Option.some.injEq] at hc
      exact hip hc.symm
    simp [hcb]
  rw [hkept]
  refine List.flatMap_congr fun c hc => unpackedBy_append ht hbp ?_
  rintro rfl
  have hci := ht.forest.mem_childrenOf.1 (List.mem_filter.1 hc).1
  rw [hpf, Option.some.injEq] at hci
  exact hif hci.symm

/-- As long as a block is in it, the paragraph stands behind the blocks taken from it. -/
theorem unpackedBy_para (hbt : b ∉ taken) :
    unpackedBy t taken p = ((t.childrenOf p).filter fun c => c ∈ taken) ++ [p] := by
  rw [unpackedBy, if_neg fun hall => hbt (hall.2 b (ht.forest.mem_childrenOf.2 hbp))]

variable (htaken : ∀ b ∈ taken, ∃ f, Titled t b f) (hbt : b ∉ taken)

include hb htaken

theorem childrenBy_append_para :
    childrenBy t (taken ++ [b]) p = (childrenBy t taken p).filter (· ≠ b) := by
  have hpt : t.tag? p ≠ some "formalpara" := by simp [(hb.para hbp).1]
  have htaken' := titled_append htaken hb
  rw [childrenBy_of_not_formalpara htaken' ht hpt, childrenBy_of_not_formalpara htaken ht hpt,
    List.filter_filter]
  refine List.filter_congr fun c _ => ?_
  by_cases hcb : c = b
  · simp [hcb]
  · simp [hcb]

include hbt

/-- The block is the last of those taken from the paragraph, which goes if nothing is left in it. -/
theorem unpackedBy_append_para
    (hlater : ∀ before after, t.childrenOf p = before ++ b :: after → ∀ c ∈ after, c ∉ taken) :
    unpackedBy t (taken ++ [b]) p = ((t.childrenOf p).filter fun c => c ∈ taken) ++
      b :: if childrenBy t (taken ++ [b]) p = [] then [] else [p] := by
  have hpt : t.tag? p ≠ some "formalpara" := by simp [(hb.para hbp).1]
  obtain ⟨before, after, hc⟩ := List.append_of_mem (ht.forest.mem_childrenOf.2 hbp)
  have hd := ht.forest.nodup_childrenOf p
  have hblocks : (t.childrenOf p).filter (fun c => c ∈ taken ++ [b]) =
      ((t.childrenOf p).filter fun c => c ∈ taken) ++ [b] := by
    rw [hc] at hd ⊢
    exact filter_mem_append hd hbt (hlater before after hc)
  have hempty : (t.childrenOf p ≠ [] ∧ ∀ c ∈ t.childrenOf p, c ∈ taken ++ [b]) ↔
      childrenBy t (taken ++ [b]) p = [] := by
    rw [childrenBy_of_not_formalpara (titled_append htaken hb) ht hpt, List.filter_eq_nil_iff]
    simp only [decide_eq_true_iff, not_not]
    exact and_iff_right (by simp [hc])
  rw [unpackedBy, hblocks, List.append_assoc, List.singleton_append]
  simp only [hempty]

/-- In the formal paragraph the block stands before the paragraph. -/
theorem childrenBy_append_formal
    (hlater : ∀ before after, t.childrenOf p = before ++ b :: after → ∀ c ∈ after, c ∉ taken)
    (hd : (childrenBy t taken f).Nodup) :
    childrenBy t (taken ++ [b]) f = (beside 0 p b (childrenBy t taken f)).filter
      fun c => ¬ (c = p ∧ childrenBy t (taken ++ [b]) p = []) := by
  obtain ⟨hpara, hpf⟩ := hb.para hbp
  obtain ⟨before, after, hc⟩ := List.append_of_mem (ht.forest.mem_childrenOf.2 hpf)
  obtain ⟨-, hbefore, hafter⟩ := ht.forest.of_childrenOf_eq hc
  have hnow : childrenBy t taken f =
      (before.flatMap (unpackedBy t taken) ++ (t.childrenOf p).filter fun c => c ∈ taken) ++
        p :: after.flatMap (unpackedBy t taken) := by
    rw [childrenBy_of_formalpara htaken ht hb.formalpara, hc, List.flatMap_append,
      List.flatMap_cons, unpackedBy_para ht hbp hbt]
    simp
  have hnext : childrenBy t (taken ++ [b]) f =
      (before.flatMap (unpackedBy t taken) ++ (t.childrenOf p).filter fun c => c ∈ taken) ++
        b :: ((if childrenBy t (taken ++ [b]) p = [] then [] else [p]) ++
          after.flatMap (unpackedBy t taken)) := by
    rw [childrenBy_of_formalpara (titled_append htaken hb) ht hb.formalpara, hc,
      List.flatMap_append, List.flatMap_cons, unpackedBy_append_para ht hb hbp htaken hbt hlater,
      List.flatMap_congr fun c hcb =>
        unpackedBy_append ht hbp (ne_of_mem_of_not_mem hcb hbefore),
      List.flatMap_congr fun c hca =>
        unpackedBy_append ht hbp (ne_of_mem_of_not_mem hca hafter)]
    simp
  rw [hnow] at hd
  obtain ⟨hahead, hbehind⟩ := not_mem_of_nodup hd
  have hkeep {l : List NodeId} (hl : p ∉ l) :
      l.filter (fun c => ¬ (c = p ∧ childrenBy t (taken ++ [b]) p = [])) = l :=
    List.filter_eq_self.2 fun c hc => by simp [ne_of_mem_of_not_mem hc hl]
  have hbne : b ≠ p := (hb.1.ne_of_tag? hpara (by decide)).symm
  rw [hnow, beside_zero hahead, List.filter_append, hkeep hahead,
    List.filter_cons_of_pos (by simp [hbne]), List.filter_cons, hkeep hbehind, hnext]
  by_cases he : childrenBy t (taken ++ [b]) p = []
  · simp [he]
  · simp [he]

omit ht in
/-- The label of the formal paragraph gets the note that the paragraph asks for, unless the paragraph has
lost its role to an earlier block. -/
theorem relabelBy_append {asked : Bool}
    (hasked : asked = (!(taken.any fun c => t.parentOf c == some p) && asksNote t p)) (i : NodeId) :
    (if i = f then noteIf asked ∘ named "example" else if i = b then named "programlisting"
      else if i = p then roleless else id) ∘ relabelBy t taken i =
        relabelBy t (taken ++ [b]) i := by
  obtain ⟨hpara, hpf⟩ := hb.para hbp
  have htaken' := titled_append htaken hb
  by_cases hif : i = f
  · subst hif
    rw [if_pos rfl, relabelBy_formalpara htaken hb.formalpara,
      relabelBy_formalpara htaken' hb.formalpara]
    simp only [List.any_append, List.any_cons, List.any_nil, Bool.or_false, hb.formalOf_eq, hbp,
      beq_self_eq_true, Bool.true_and, Bool.or_true, Option.any_some, if_true]
    -- An earlier block of the paragraph has made an example of the formal paragraph already.
    have hearlier {c : NodeId} (hc : t.parentOf c = some p) : formalOf t c = some i := by
      rw [formalOf, hc, Option.bind_some, hpf]
    by_cases hformal : (taken.any fun c => formalOf t c == some i) = true
    · rw [if_pos hformal, noteIf_named_noteIf_named, hasked]
      congr 2
      by_cases hp : (taken.any fun c => t.parentOf c == some p) = true
      · obtain ⟨c, hc, hcp⟩ := List.any_eq_true.1 hp
        rw [beq_iff_eq] at hcp
        rw [hp]
        cases hasks : asksNote t p with
        | false => rfl
        | true =>
            have hnoted : (taken.any fun b => formalOf t b == some i &&
                (t.parentOf b).any (asksNote t)) = true :=
              List.any_eq_true.2 ⟨c, hc, by simp [hearlier hcp, hcp, hasks]⟩
            rw [hnoted]
            rfl
      · rw [Bool.not_eq_true] at hp
        rw [hp, Bool.not_false, Bool.true_and]
    · rw [Bool.not_eq_true, List.any_eq_false] at hformal
      have hp : (taken.any fun c => t.parentOf c == some p) = false :=
        List.any_eq_false.2 fun c hc hcp => hformal c hc (by simp [hearlier (beq_iff_eq.1 hcp)])
      have hnoted : (taken.any fun b => formalOf t b == some i &&
          (t.parentOf b).any (asksNote t)) = false :=
        List.any_eq_false.2 fun c hc hcp => hformal c hc (Bool.and_eq_true_iff.1 hcp).1
      rw [hasked, hp, hnoted, Bool.not_false, Bool.true_and, Bool.false_or,
        List.any_eq_false.2 hformal]
      rfl
  by_cases hib : i = b
  · subst hib
    rw [if_neg hif, if_pos rfl, relabelBy_code htaken hb.1, relabelBy_code htaken' hb.1,
      if_neg hbt, if_pos (by simp)]
    rfl
  by_cases hip : i = p
  · subst hip
    rw [if_neg hif, if_neg hib, if_pos rfl, relabelBy_para htaken hpara,
      relabelBy_para htaken' hpara]
    simp only [List.any_append, List.any_cons, hbp, beq_self_eq_true, Bool.true_or, Bool.or_true,
      if_true]
    split
    · exact funext roleless_roleless
    · rfl
  · have hfi : (f == i) = false := beq_false_of_ne (Ne.symm hif)
    rw [if_neg hif, if_neg hib, if_neg hip, relabelBy, relabelBy]
    simp [hb.formalOf_eq, hbp, hib, hfi, Ne.symm hip]

end Step

/-- A node that has a parent goes if it has no children. -/
theorem views_of_detached_if {v : Tree} (hv : Proper v) (hp : v.parentOf p = some f) {w : Tree}
    (hw : w = if v.childrenOf p = [] then v.detached p else v) :
    Proper w ∧ w.root = v.root ∧ w.nodes.size = v.nodes.size ∧
      (∀ i, w.contentOf i = v.contentOf i) ∧
      ∀ i, w.childrenOf i =
        (v.childrenOf i).filter fun c => ¬ (c = p ∧ v.childrenOf p = []) := by
  by_cases he : v.childrenOf p = []
  · rw [if_pos he] at hw
    subst hw
    refine ⟨hv.detached p, ?_, size_detached p, contentOf_detached hv.forest p, fun i => ?_⟩
    · rw [root_detached, if_neg fun hc => by simp [hp] at hc]
    · simp [childrenOf_detached hv.forest, he]
  · rw [if_neg he] at hw
    subst hw
    exact ⟨hv, rfl, rfl, fun _ => rfl, fun i => by simp [he]⟩

section Promoting

variable (ht : Proper t) (hu : Promoting t taken u) (htaken : ∀ b ∈ taken, ∃ f, Titled t b f)
  (hb : Titled t b f) (hbp : t.parentOf b = some p) (hbt : b ∉ taken)

include hu htaken hb hbp

theorem Promoting.asksNote_eq : asksNote u p =
    (!(taken.any fun c => t.parentOf c == some p) && asksNote t p) := by
  have hcont := hu.contentOf p
  rw [relabelBy_para htaken (hb.para hbp).1] at hcont
  split at hcont
  · next hany =>
    rw [hany, Bool.not_true, Bool.false_and, asksNote, attribute?_eq, hcont, Option.bind_map]
    cases t.contentOf p with
    | none => rfl
    | some n =>
        have hrole : (roleless n).attribute? "role" = none := Attributes.get?_erase_self _ _
        rw [Option.bind_some, Function.comp_apply, hrole]
        rfl
  · next hany =>
    rw [Bool.not_eq_true] at hany
    rw [hany, Bool.not_false, Bool.true_and]
    exact asksNote_congr (hcont.trans Option.map_id')

include ht hbt

theorem Promoting.formalBlock : FormalBlock u b p f := by
  obtain ⟨hpara, hpf⟩ := hb.para hbp
  have hpt : t.tag? p ≠ some "formalpara" := by simp [hpara]
  refine ⟨?_, ?_, ?_, ?_, ?_⟩
  · obtain ⟨tag, htag, hm⟩ := hb.1
    have hcont := hu.contentOf b
    rw [relabelBy_code htaken hb.1, if_neg hbt, Option.map_id] at hcont
    exact ⟨tag, (tag?_eq_of_contentOf hcont).trans htag, hm⟩
  · rw [← hu.proper.forest.mem_childrenOf, hu.childrenOf,
      childrenBy_of_not_formalpara htaken ht hpt, List.mem_filter]
    exact ⟨ht.forest.mem_childrenOf.2 hbp, decide_eq_true hbt⟩
  · have hcont := hu.contentOf p
    rw [relabelBy_para htaken hpara] at hcont
    have hsame : u.tag? p = t.tag? p := by
      rw [tag?_eq, hcont, tag?_eq, Option.bind_map]
      split <;> rfl
    rw [hsame, hpara]
  · rw [← hu.proper.forest.mem_childrenOf, hu.childrenOf,
      childrenBy_of_formalpara htaken ht hb.formalpara, List.mem_flatMap]
    refine ⟨p, ht.forest.mem_childrenOf.2 hpf, ?_⟩
    rw [unpackedBy_para ht hbp hbt]
    simp
  · have hcont := hu.contentOf f
    have hf := hb.formalpara
    rw [relabelBy_formalpara htaken hf] at hcont
    rw [tag?_eq, Option.bind_eq_some_iff] at hf
    obtain ⟨n, hn, hnt⟩ := hf
    rw [IsFormal, tag?_eq, hcont, hn, Option.map_some, Option.bind_some]
    split
    · right
      rcases noteIf_eq (taken.any fun c => formalOf t c == some f &&
        (t.parentOf c).any (asksNote t)) with hnote | hnote
      · rw [hnote]
        exact Node.tag?_eq_some_iff.2 ⟨(Node.tag?_eq_some_iff.1 hnt).1, rfl⟩
      · rw [hnote]
        exact Node.tag?_eq_some_iff.2 ⟨(Node.tag?_eq_some_iff.1 hnt).1, rfl⟩
    · exact .inl hnt

theorem Promoting.step
    (hlater : ∀ before after, t.childrenOf p = before ++ b :: after → ∀ c ∈ after, c ∉ taken) :
    ∃ u', (formalize b).run u = .ok 1 u' ∧ Promoting t (taken ++ [b]) u' := by
  obtain ⟨hpara, hpf⟩ := hb.para hbp
  have hblock := hu.formalBlock ht htaken hb hbp hbt
  obtain ⟨v, hrun, hv, hsize, hcont, hpar, hchild⟩ := exists_run_formalize hblock hu.proper
  have hvp : v.childrenOf p = childrenBy t (taken ++ [b]) p := by
    rw [hchild, if_neg hblock.formal_ne_para.symm, hu.childrenOf,
      childrenBy_append_para ht hb hbp htaken]
  obtain ⟨hproper, hroot, hsize', hcont', hchild'⟩ := views_of_detached_if hv.proper
    (by rw [hpar, if_neg hblock.para_ne, hblock.inner]) rfl
  refine ⟨_, hrun, hproper, hroot.trans (hv.root.trans hu.root),
    hsize'.trans (hsize.trans hu.size), fun i => ?_, fun i => ?_⟩
  · rw [hcont', hcont, hu.contentOf, Option.map_map,
      relabelBy_append hb hbp htaken hbt (hu.asksNote_eq htaken hb hbp)]
  · rw [hchild', hvp, hchild]
    by_cases hif : i = f
    · subst hif
      have hbi : ∀ c ∈ u.childrenOf i, c ≠ b := by
        rintro c hc rfl
        rw [hu.proper.forest.mem_childrenOf, hblock.block, Option.some.injEq] at hc
        exact hblock.formal_ne_para hc.symm
      have hkept : (u.childrenOf i).filter (· ≠ b) = childrenBy t taken i :=
        (List.filter_eq_self.2 fun c hc => by simpa using hbi c hc).trans (hu.childrenOf i)
      rw [if_pos rfl, hkept, childrenBy_append_formal ht hb hbp htaken hbt hlater]
      exact hu.childrenOf i ▸ hu.proper.forest.nodup_childrenOf i
    rw [if_neg hif]
    by_cases hip : i = p
    · subst hip
      rw [hu.childrenOf, ← childrenBy_append_para ht hb hbp htaken]
      refine List.filter_eq_self.2 fun c hc => ?_
      simp [List.ne_nil_of_mem hc]
    · have hother : ∀ c ∈ u.childrenOf i, c ≠ b ∧ c ≠ p := by
        intro c hc
        rw [hu.proper.forest.mem_childrenOf] at hc
        constructor
        · rintro rfl
          rw [hblock.block, Option.some.injEq] at hc
          exact hip hc.symm
        · rintro rfl
          rw [hblock.inner, Option.some.injEq] at hc
          exact hif hc.symm
      rw [List.filter_filter, List.filter_eq_self.2 fun c hc => by simp [hother c hc],
        hu.childrenOf, childrenBy_append ht hbp hpf hip hif]

end Promoting

end Taken

end BookMarkup.Rule
