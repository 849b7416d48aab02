import BookMarkup.Proofs.Document.Reading
import BookMarkup.Proofs.Rule.BookRules

/-!
When the rules for books fail. On a document that has been read, there are two ways: the language of
a code block finds no place as its format, or the root of the document is a reference that would
need a label before it.
-/

namespace BookMarkup.Rule

open BookMarkup.Tree

/-- On a proper tree, the other rules succeed. -/
theorem exists_ok_of_mem_bookRules {rule : Rule} (hrule : rule ∈ bookRules)
    (hcode : rule.name ≠ "code-language") (hlabel : rule.name ≠ "label-cross-references")
    {t : Tree} (h : Proper t) : ∃ n t', rule.apply.run t = .ok n t' := by
  simp only [bookRules, List.mem_cons, List.not_mem_nil, or_false] at hrule
  rcases hrule with rfl | rfl | rfl | rfl | rfl | rfl | rfl | rfl | rfl | rfl | rfl | rfl | rfl
  · obtain ⟨n, t', hrun, _⟩ := run_renameElements h
    exact ⟨n, t', hrun⟩
  · obtain ⟨n, _, t', hrun, _⟩ := run_pruneMetadata h
    exact ⟨n, t', hrun⟩
  · obtain ⟨n, t', hrun, _⟩ := run_partIntro h
    exact ⟨n, t', hrun⟩
  · exact absurd rfl hcode
  · obtain ⟨n, t', hrun, _⟩ := run_formalListings h
    exact ⟨n, t', hrun⟩
  · obtain ⟨n, t', hrun, _⟩ := run_informalListings h
    exact ⟨n, t', hrun⟩
  · obtain ⟨n, t', hrun, _⟩ := run_hoistAppendices h
    exact ⟨n, t', hrun⟩
  · obtain ⟨n, t', hrun, _⟩ := run_attachCalloutLists h
    exact ⟨n, t', hrun⟩
  · obtain ⟨n, t', hrun, _⟩ := run_wrapHeaderCells h
    exact ⟨n, t', hrun⟩
  · obtain ⟨n, t', hrun, _⟩ := run_flattenAttributions h
    exact ⟨n, t', hrun⟩
  · obtain ⟨n, t', hrun, _⟩ := run_wrapBlockquotes h
    exact ⟨n, t', hrun⟩
  · exact absurd rfl hlabel
  · obtain ⟨n, t', hrun, _⟩ := run_columnSpecs h
    exact ⟨n, t', hrun⟩

/-- The run of all rules on a document with a root is misused exactly if some code block in the
tree left by the first three rules is blocked; otherwise it is refused exactly if the root is a
reference with a target, for want of a place for its label; otherwise it succeeds. The other rules
fail on no proper tree. -/
theorem run_bookRules_of_parse {o : Reader.Options} {text : String} {d : Document} {r : NodeId}
    (h : Document.parse o text = .ok d) (hr : d.tree.root = some r) :
    ∃ n₃ t₃, (runAll (bookRules.take 3)).run d.tree = .ok n₃ t₃ ∧
      ((∃ rule m t', (runAll bookRules).run d.tree = .error ⟨rule, .misuse m⟩ t') ↔ Blocked t₃) ∧
      ((∃ rule f t', (runAll bookRules).run d.tree = .error ⟨rule, .fault f⟩ t') ↔
        ¬ Blocked t₃ ∧ RootReference d.tree r) ∧
      ((∃ n t', (runAll bookRules).run d.tree = .ok n t') ↔
        ¬ Blocked t₃ ∧ ¬ RootReference d.tree r) ∧
      (∀ failure t', (runAll bookRules).run d.tree = .error failure t' →
        (∃ id, failure = ⟨"code-language", .misuse (.misplacedAttribute id "language")⟩) ∨
          failure = ⟨"label-cross-references", .fault (.detached r)⟩) ∧
      ∀ rule ∈ bookRules, rule.name ≠ "code-language" → rule.name ≠ "label-cross-references" →
        ∀ t, Proper t → ∃ n t', rule.apply.run t = .ok n t' := by
  obtain ⟨n₁, t₁, n₃, t₃, _, hrun₃, _, houtcome⟩ := run_bookRules (Document.proper_of_parse h)
  refine ⟨n₃, t₃, hrun₃, ?_⟩
  simp only [← and_assoc]
  refine ⟨?_, fun _ hm hcode hlabel _ ht => exists_ok_of_mem_bookRules hm hcode hlabel ht⟩
  generalize (runAll bookRules).run d.tree = result at houtcome
  cases houtcome with
  | blocked hb => simp [hb]
  | @unplaced root _ hb hroot =>
      have hroot' : root = r := by
        have hroot := hroot.1
        rw [hr, Option.some.injEq] at hroot
        exact hroot.symm
      subst hroot'
      simp [hb, hroot]
  | done hb hroot => simp [hb, hroot r]

/-- A document that is nothing but a reference. -/
theorem not_ok_of_lone_reference :
    ∃ d, Document.parse {} "<xref linkend='a'/>" = .ok d ∧ d.tree.root = some 0 ∧
      ¬ ∃ n t', (runAll bookRules).run d.tree = .ok n t' := by
  let body := [' ', 'l', 'i', 'n', 'k', 'e', 'n', 'd', '=', '\x27', 'a', '\x27']
  have hs : Token.scan (Token.withoutMark "<xref linkend='a'/>".toList) =
      ⟨[.emptyTag ⟨"xref", body⟩], none⟩ := by cbv
  have ha : Reader.attributesOf {} ⟨"xref", body⟩ =
      .ok (Attributes.empty.insert "linkend" "a") := by decide +kernel
  have hname : ({} : Reader.Options).nameOf "xref" = "xref" := by cbv
  have hparse := Document.parse_of_tokens hs (Reader.run_forM_take_emptyTag {} hname ha) rfl
  obtain ⟨_, _, _, _, _, hok, _⟩ := run_bookRules_of_parse hparse rfl
  exact ⟨_, hparse, rfl, fun h => (hok.1 h).2 ⟨rfl, rfl, "a", rfl⟩⟩

end BookMarkup.Rule
