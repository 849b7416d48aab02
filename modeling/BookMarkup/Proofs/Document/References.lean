import BookMarkup.Proofs.Document.Head
import BookMarkup.Proofs.Text.Reference
import BookMarkup.Token.Stream

/-!
One reference, read as the content of an element and as the value of an attribute. What stands for
nothing is refused in both, and what stands for a character stands for the same one in both, but for
numbers written in a loose way, which are refused in the value alone.
-/

namespace BookMarkup

open Text

/-- No character of the name ends a reference, a value or character data. -/
def Text.Reference.IsPlain (name : String) : Prop :=
  ∀ c ∈ name.toList, c ∉ ['&', ';', '<', '"', '\x27']

instance (name : String) : Decidable (Text.Reference.IsPlain name) :=
  List.decidableBAll _ name.toList

def Document.withContent (name : String) : String :=
  "<a>&" ++ name ++ ";</a>"

def Document.withValue (name : String) : String :=
  "<a b=\"&" ++ name ++ ";\"/>"

namespace Token

variable {name : String} (hn : Reference.IsPlain name)

include hn

theorem scan_withContent : scan (withoutMark (Document.withContent name).toList) =
    ⟨[.startTag ⟨"a", []⟩, .reference name, .endTag "a"], none⟩ := by
  have htext : (Document.withContent name).toList =
      '<' :: 'a' :: '>' :: '&' :: (name.toList ++ ';' :: ['<', '/', 'a', '>']) := by
    simp [Document.withContent]
  have hstart (rest : List Char) : next '<' ('a' :: '>' :: rest) = .ok (.startTag ⟨"a", []⟩, rest) :=
    rfl
  have hreference : next '&' (name.toList ++ ';' :: ['<', '/', 'a', '>']) =
      .ok (.reference name, ['<', '/', 'a', '>']) := by
    rw [next_reference (fun c hc => by have := hn c hc; simp_all), String.ofList_toList]
  have hend : scanRest ["a"] ['<', '/', 'a', '>'] = ⟨[.endTag "a"], none⟩ := by decide +kernel
  have hscan : scan (withoutMark (Document.withContent name).toList) =
      scanRest [] ('<' :: 'a' :: '>' :: '&' :: (name.toList ++ ';' :: ['<', '/', 'a', '>'])) := by
    rw [htext]
    rfl
  rw [hscan, scanRest_cons, hstart]
  simp only [nest]
  rw [scanRest_cons, hreference]
  simp only [nest]
  rw [hend]
  rfl

theorem quote_not_mem : ∀ c ∈ ("&" ++ name ++ ";").toList, c ≠ '"' := by
  intro c hc
  have := hn c
  simp only [String.toList_append, List.mem_append] at hc
  rcases hc with (hc | hc) | hc <;> simp_all

theorem scan_withValue : scan (withoutMark (Document.withValue name).toList) =
    ⟨[.emptyTag ⟨"a", ' ' :: 'b' :: '=' :: '"' :: ("&" ++ name ++ ";").toList ++ ['"']⟩], none⟩ := by
  have htext : (Document.withValue name).toList = '<' :: 'a' :: ' ' :: 'b' :: '=' :: '"' ::
      (("&" ++ name ++ ";").toList ++ '"' :: ['/', '>']) := by
    simp [Document.withValue]
  have hquote := quote_not_mem hn
  generalize ("&" ++ name ++ ";").toList = value at htext hquote ⊢
  have hend : tagEnd none [] ('a' :: ' ' :: 'b' :: '=' :: '"' :: (value ++ '"' :: ['/', '>'])) =
      some ('a' :: ' ' :: 'b' :: '=' :: '"' :: value ++ ['"'] ++ ['/'], []) := by
    have hopen : tagEnd none [] ('a' :: ' ' :: 'b' :: '=' :: '"' :: (value ++ '"' :: ['/', '>'])) =
        tagEnd (some '"') ['"', '=', 'b', ' ', 'a'] (value ++ '"' :: ['/', '>']) := rfl
    rw [hopen, tagEnd_quoted hquote]
    simp [tagEnd]
  have hsplit : splitName ('a' :: ' ' :: 'b' :: '=' :: '"' :: value ++ ['"']) =
      ⟨"a", ' ' :: 'b' :: '=' :: '"' :: value ++ ['"']⟩ := rfl
  have hnext : next '<' ('a' :: ' ' :: 'b' :: '=' :: '"' :: (value ++ '"' :: ['/', '>'])) =
      .ok (.emptyTag ⟨"a", ' ' :: 'b' :: '=' :: '"' :: value ++ ['"']⟩, []) := by
    have hname : IsQName "a" := by decide
    have htag := next_tag hname (' ' :: 'b' :: '=' :: '"' :: (value ++ '"' :: ['/', '>']))
    rw [show "a".toList = ['a'] by simp, List.singleton_append, hend] at htag
    rw [htag]
    simp only [ofInside, List.getLast?_concat, if_true, List.dropLast_concat, hsplit]
  have hscan : scan (withoutMark (Document.withValue name).toList) =
      scanRest [] ('<' :: 'a' :: ' ' :: 'b' :: '=' :: '"' :: (value ++ '"' :: ['/', '>'])) := by
    rw [htext]
    rfl
  rw [hscan, scanRest_cons, hnext]
  rfl

end Token

theorem Tag.attributes_one {value : List Char} (hv : ∀ c ∈ value, c ≠ '"') (strict : Bool) :
    ∃ start, (Tag.mk "a" (' ' :: 'b' :: '=' :: '"' :: value ++ ['"'])).attributes strict =
      ⟨[⟨start, "b", String.ofList value⟩], none⟩ := by
  have hin : ∀ c ∈ value, (c != '"') = true := fun c hc => by simpa using hv c hc
  have hstop : ∀ c ∈ ['"'].head?, (c != '"') = false := by simp
  have hquoted (size : Nat) : Attribute.quotedValue size ('"' :: value ++ ['"']) = .ok (value, []) := by
    have hblank : ('"' :: value ++ ['"']).dropWhile isMarkupBlank = '"' :: value ++ ['"'] := rfl
    rw [Attribute.quotedValue, hblank]
    simp only [List.cons_append, true_or, if_true, Token.takeWhile_append_stop hin hstop,
      Token.dropWhile_append_stop hin hstop]
  have hnext (size : Nat) : ∃ start, Attribute.next? size (fun _ => none)
      (' ' :: 'b' :: '=' :: '"' :: value ++ ['"']) =
        .ok (some (⟨start, "b", String.ofList value⟩, [])) := by
    have hdrop : (' ' :: 'b' :: '=' :: '"' :: value ++ ['"']).dropWhile isMarkupBlank =
        'b' :: '=' :: ('"' :: value ++ ['"']) := rfl
    have hkey : ('=' :: ('"' :: value ++ ['"'])).takeWhile Attribute.inKey = [] := rfl
    have hafter : Attribute.afterEquals size
        (('=' :: ('"' :: value ++ ['"'])).dropWhile Attribute.inKey) = .ok ('"' :: value ++ ['"']) := rfl
    refine ⟨size - byteLength ('b' :: '=' :: ('"' :: value ++ ['"'])), ?_⟩
    rw [Attribute.next?, hdrop]
    simp only [hkey, hafter, hquoted, bind, Except.bind]
    rfl
  obtain ⟨start, h⟩ := hnext
    (byteLength "a".toList + byteLength (' ' :: 'b' :: '=' :: '"' :: value ++ ['"']))
  refine ⟨start, ?_⟩
  rw [attributes]
  simp only [List.cons_append, List.length_cons, Attribute.readFrom, List.find?_nil, Option.map_none,
    ite_self] at h ⊢
  rw [h]
  rfl

namespace Document

open Reader

variable {o : Options} {name : String}

theorem attributesOf_one {value : List Char} (hv : ∀ c ∈ value, c ≠ '"') :
    attributesOf o ⟨"a", ' ' :: 'b' :: '=' :: '"' :: value ++ ['"']⟩ =
      match unescape (String.ofList value) with
      | .error flaw => .error (.value flaw)
      | .ok value => .ok (Attributes.empty.insert "b" value) := by
  obtain ⟨start, h⟩ := Tag.attributes_one hv true
  have hb : o.nameOf "b" = "b" := nameOf_isName (by decide) o
  have hdeclares : (o.stripPrefixes && declaresNamespace "b") = false := by
    rw [not_declaresNamespace (by decide) (by decide), Bool.and_false]
  rw [attributesOf, h]
  simp only [attributesFrom, hdeclares, hb, Bool.false_eq_true, if_false]
  cases unescape (String.ofList value) <;> rfl

def lone (text : String) : Tree :=
  (Tree.founded {} (Node.element "a")).adopt 0 (Node.text text)

theorem textContent_lone (text : String) : (lone text).textContent 0 = .ok text := by
  have hwalk : (lone text).walk 0 = .ok [{ Node.element "a" with id := 0, children := [1] },
      { Node.text text with id := 1, parent := some 0 }] := rfl
  rw [Tree.textContent, hwalk]
  simp [bind, Except.bind, pure, Except.pure, Node.isCharacterData, Node.element, Node.text]

theorem flush_lone {run : String} (hr : run ≠ "") (opened : Opened) (ho : opened.id = 0) :
    flush o true { tree := Tree.founded {} (Node.element "a"), opened := [opened], run } =
      { tree := lone run, opened := [opened] } := by
  have hk : keepsBlank (Tree.founded {} (Node.element "a")) 0 true = true := rfl
  simp only [flush, if_neg hr, ho, hk, Bool.or_true, if_true]
  rfl

variable (hn : Reference.IsPlain name)

include hn

theorem parse_withValue : parse o (withValue name) =
    match unescape ("&" ++ name ++ ";") with
    | .error flaw => .error (.value flaw)
    | .ok value =>
      let root := { Node.element "a" with attributes := Attributes.empty.insert "b" value }
      .ok { tree := Tree.founded {} root } := by
  have hs := Token.scan_withValue hn
  have ha := attributesOf_one (o := o) (Token.quote_not_mem hn)
  have hname : o.nameOf "a" = "a" := nameOf_isName (by decide) o
  rw [String.ofList_toList] at ha
  cases hv : unescape ("&" ++ name ++ ";") with
  | error flaw =>
      rw [hv] at ha
      refine parse_error_of_tokens (congrArg Readout.items hs) (r := {}) ?_
      rw [List.forM_cons, EStateM.run_bind, run_take_emptyTag, run_addElement]
      simp only [flush, ha]
  | ok value =>
      rw [hv] at ha
      exact parse_of_tokens hs (run_forM_take_emptyTag o hname ha) rfl

theorem parse_withContent : parse o (withContent name) =
    match Reference.inData name.toList with
    | none => .error (.unknownReference name)
    | some c => .ok { tree := lone (String.singleton c) } := by
  have hs := Token.scan_withContent hn
  have hname : o.nameOf "a" = "a" := nameOf_isName (by decide) o
  have hstart : (take o (.startTag ⟨"a", []⟩)).run {} = .ok ()
      { tree := Tree.founded {} (Node.element "a"), opened := [⟨0, "a", false⟩] } := by
    rw [run_take_startTag, run_addElement, hname]
    rfl
  cases hc : Reference.inData name.toList with
  | none =>
      refine parse_error_of_tokens (congrArg Readout.items hs)
        (r := { tree := Tree.founded {} (Node.element "a"), opened := [⟨0, "a", false⟩] }) ?_
      rw [List.forM_cons, EStateM.run_bind, hstart]
      simp only [List.forM_cons, EStateM.run_bind, run_take_reference, hc]
  | some c =>
      have hrun : "".push c ≠ "" := by simp
      have hclosed : (forM [Token.startTag ⟨"a", []⟩, .reference name, .endTag "a"] (take o)).run {} =
          .ok () { tree := lone (String.singleton c) } := by
        rw [List.forM_cons, EStateM.run_bind, hstart]
        simp only [List.forM_cons, EStateM.run_bind, run_take_reference, hc, run_take_endTag, hname]
        rw [flush_lone hrun _ rfl]
        rfl
      exact parse_of_tokens hs hclosed rfl

/-- A reference means the same as the content of an element and as the value of an attribute: both
texts are refused, or both are read, and the content is the value. The exception are loose numbers,
with which only the first text is read. -/
theorem parse_reference (o : Options) :
    match Reference.inData name.toList with
    | none => (∃ fault, parse o (withContent name) = .error fault) ∧
        ∃ fault, parse o (withValue name) = .error fault
    | some c =>
      (∃ d, parse o (withContent name) = .ok d ∧ d.tree.root = some 0 ∧
        d.tree.textContent 0 = .ok (String.singleton c)) ∧
      if Reference.isLoose name.toList then ∃ fault, parse o (withValue name) = .error fault
      else ∃ d, parse o (withValue name) = .ok d ∧ d.tree.root = some 0 ∧
        d.tree.attribute? 0 "b" = some (String.singleton c) := by
  have hvalue := parse_withValue (o := o) hn
  have hcontent := parse_withContent (o := o) hn
  have hplain : ∀ c ∈ name.toList, c ≠ ';' ∧ c ≠ '&' := fun c hc => by
    have := hn c hc
    simp_all
  have hresolved := toOption_unescape_reference hplain
  cases hc : Reference.inData name.toList with
  | none =>
      rw [hc] at hcontent hresolved
      rw [Option.map_none, ite_self] at hresolved
      cases hu : unescape ("&" ++ name ++ ";") with
      | error flaw =>
          rw [hu] at hvalue
          exact ⟨⟨_, hcontent⟩, _, hvalue⟩
      | ok value => simp [hu, Except.toOption] at hresolved
  | some c =>
      rw [hc] at hcontent hresolved
      refine ⟨⟨_, hcontent, rfl, textContent_lone _⟩, ?_⟩
      split at hresolved
      · next hl =>
        rw [if_pos hl]
        cases hu : unescape ("&" ++ name ++ ";") with
        | error flaw =>
            rw [hu] at hvalue
            exact ⟨_, hvalue⟩
        | ok value => simp [hu, Except.toOption] at hresolved
      · next hl =>
        rw [if_neg hl]
        cases hu : unescape ("&" ++ name ++ ";") with
        | error flaw => simp [hu, Except.toOption] at hresolved
        | ok value =>
            rw [hu] at hvalue hresolved
            obtain rfl : value = String.singleton c := Option.some.inj hresolved
            exact ⟨_, hvalue, rfl, Attributes.get?_insert_self _ _ _⟩

omit hn in
/-- A hexadecimal number is the same character in both places. -/
theorem parse_reference_hexadecimal :
    ∃ d d', parse {} "<a>&#x41;</a>" = .ok d ∧ d.tree.textContent 0 = .ok "A" ∧
      parse {} "<a b=\"&#x41;\"/>" = .ok d' ∧ d'.tree.attribute? 0 "b" = some "A" := by
  have hn : Reference.IsPlain "#x41" := by decide
  have h := parse_reference hn {}
  have hc : Reference.inData "#x41".toList = some 'A' := by decide +kernel
  have hl : Reference.isLoose "#x41".toList = false := by decide +kernel
  have hcontent : withContent "#x41" = "<a>&#x41;</a>" := by decide +kernel
  have hvalue : withValue "#x41" = "<a b=\"&#x41;\"/>" := by decide +kernel
  rw [hc] at h
  simp only [hl, hcontent, hvalue, Bool.false_eq_true, if_false] at h
  obtain ⟨⟨d, hd, -, htext⟩, d', hd', -, hb⟩ := h
  exact ⟨d, d', hd, htext, hd', hb⟩

omit hn in
/-- With a plus sign the number stands for a character in an element, but is refused in a value. -/
theorem parse_reference_signed :
    (∃ d, parse {} "<a>&#+65;</a>" = .ok d ∧ d.tree.textContent 0 = .ok "A") ∧
      parse {} "<a b=\"&#+65;\"/>" = .error (.value (.number .signed)) := by
  have hn : Reference.IsPlain "#+65" := by decide
  have hc : Reference.inData "#+65".toList = some 'A' := by decide +kernel
  have hu : unescape ("&" ++ "#+65" ++ ";") = .error (.number .signed) := by decide +kernel
  have hcontent : withContent "#+65" = "<a>&#+65;</a>" := by decide +kernel
  have hvalue : withValue "#+65" = "<a b=\"&#+65;\"/>" := by decide +kernel
  have hread := parse_withContent (o := {}) hn
  have hrefused := parse_withValue (o := {}) hn
  rw [hcontent, hc] at hread
  rw [hvalue, hu] at hrefused
  exact ⟨⟨_, hread, textContent_lone "A"⟩, hrefused⟩

end Document

end BookMarkup
