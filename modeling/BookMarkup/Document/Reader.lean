import BookMarkup.Token.Attribute
import BookMarkup.Token.Scan
import BookMarkup.Tree.Basic

/-!
Reading a document from text. Nodes are numbered in the order in which they are met. Runs of
character data, with their references resolved, become text nodes; a blank run between markup is
dropped unless the element preserves its space, or already begins or ends with text, or has nothing
else in it. Nothing outside the root becomes a node.
-/

namespace BookMarkup

namespace Document

/-- Why a text cannot be read. -/
inductive Fault
  | markup (position : Nat) (flaw : Token.Flaw)
  | attribute (flaw : Tag.Attribute.Flaw)
  | value (flaw : Text.ValueFlaw)
  | unknownReference (name : String)
  | unbalanced (expected found : String)
  | secondRoot (tag : String)
  deriving DecidableEq, Repr

def Fault.message : Fault → String
  | .markup position flaw => s!"XML parse error at position {position}: " ++ flaw.message
  | .attribute flaw => "Invalid attribute: " ++ flaw.message
  | .value flaw => "Invalid escape sequence: " ++ flaw.message
  | .unknownReference name => s!"Unknown entity reference: &{name};"
  | .unbalanced expected found =>
    s!"Mismatched closing tag: expected </{expected}>, got </{found}>"
  | .secondRoot tag => s!"Document has more than one root element: <{tag}>"

end Document

/-- An element whose end tag has not come yet. -/
structure Reader.Opened where
  id : NodeId
  tag : String
  preserves : Bool
  deriving DecidableEq, Repr

/-- What has been read so far: the tree, the elements still open with the innermost first, and the
run of character data that no markup has ended yet. -/
structure Reader where
  tree : Tree := {}
  standalone : Option String := none
  opened : List Reader.Opened := []
  run : String := ""
  deriving DecidableEq, Repr

namespace Reader

/-- What is left out in reading: the prefixes of names together with the declarations of namespaces,
and blank runs between markup. -/
structure Options where
  stripPrefixes : Bool := true
  dropBlanks : Bool := true
  deriving DecidableEq, Repr

/-- The part of a name after its first colon, or all of it if it has none. -/
def localName (name : String) : String :=
  match name.toList.dropWhile (· != ':') with
  | [] => name
  | _ :: rest => String.ofList rest

def Options.nameOf (o : Options) (name : String) : String :=
  if o.stripPrefixes then localName name else name

/-- Whether an attribute declares a namespace. -/
def declaresNamespace (key : String) : Bool :=
  key == "xmlns" || (Text.after? "xmlns:".toList key.toList).isSome

/-- Whether a blank run is kept as a child of `parent`, whose end tag comes next if `closing`. -/
def keepsBlank (t : Tree) (parent : NodeId) (closing : Bool) : Bool :=
  match t.get? parent with
  | none => false
  | some p =>
    let isText (id : NodeId) := ((t.get? id).map Node.isText).getD false
    (closing && p.children.isEmpty) || p.children.head?.any isText || p.children.getLast?.any isText

/-- Ends the run of character data, at an end tag if `closing`. -/
def flush (o : Options) (closing : Bool) (r : Reader) : Reader :=
  match r.opened with
  | [] => { r with run := "" }
  | top :: _ =>
    if r.run = "" then r
    else if !o.dropBlanks || top.preserves || !Text.isBlank r.run ||
        keepsBlank r.tree top.id closing then
      { r with run := "", tree := r.tree.adopt top.id (Node.text r.run) }
    else { r with run := "" }

/-- Adds a node below the innermost open element; outside the root it is dropped. -/
def addLeaf (content : Node) (r : Reader) : Reader :=
  match r.opened with
  | [] => r
  | top :: _ => { r with tree := r.tree.adopt top.id content }

/-- Reads attributes as written into `earlier`. Of two with the same name the later one gives the
value. -/
def attributesFrom (o : Options) (earlier : Attributes) :
    List Tag.Attribute → Except Document.Fault Attributes
  | [] => .ok earlier
  | a :: rest =>
    if o.stripPrefixes && declaresNamespace a.key then attributesFrom o earlier rest
    else
      match Text.unescape a.value with
      | .error flaw => .error (.value flaw)
      | .ok value => attributesFrom o (earlier.insert (o.nameOf a.key) value) rest

/-- The attributes of an element by its tag. -/
def attributesOf (o : Options) (tag : Tag) : Except Document.Fault Attributes := do
  let written := tag.attributes true
  let attributes ← attributesFrom o Attributes.empty written.items
  match written.flaw with
  | some flaw => throw (.attribute flaw)
  | none => return attributes

/-- Whether the space in an element is preserved, by its tag or else as in the element around it. -/
def preservesSpace (tag : Tag) (inherited : Bool) : Except Document.Fault Bool :=
  match tag.lookup "xml:space" with
  | .error flaw => .error (.attribute flaw)
  | .ok (some "preserve") => .ok true
  | .ok (some "default") => .ok false
  | .ok _ => .ok inherited

/-- A step of reading keeps what it has read when it fails. -/
abbrev Step := EStateM Document.Fault Reader

def Step.check (result : Except Document.Fault α) : Step α :=
  match result with
  | .ok a => pure a
  | .error fault => throw fault

/-- Adds an element for a tag, below the innermost open element or as the root. A second root is
refused after its node has been added. -/
def addElement (o : Options) (tag : Tag) : Step NodeId := do
  let attributes ← Step.check (attributesOf o tag)
  let content := { Node.element (o.nameOf tag.name) with attributes }
  let r ← get
  let id := r.tree.nodes.size
  match r.opened with
  | top :: _ => set { r with tree := r.tree.adopt top.id content }
  | [] =>
    let tree := r.tree.plant content
    match tree.root with
    | some _ =>
      set { r with tree }
      throw (.secondRoot content.name)
    | none => set { r with tree := { tree with root := some id } }
  return id

/-- Reads one token. -/
def take (o : Options) : Token → Step Unit
  | .startTag tag => do
    modify (flush o false)
    let inherited := ((← get).opened.head?.map Opened.preserves).getD false
    let preserves ← Step.check (preservesSpace tag inherited)
    let id ← addElement o tag
    modify fun r => { r with opened := ⟨id, o.nameOf tag.name, preserves⟩ :: r.opened }
  | .emptyTag tag => do
    modify (flush o false)
    let _ ← addElement o tag
  | .endTag name => do
    modify (flush o true)
    let found := o.nameOf name
    match (← get).opened with
    | [] => throw (.unbalanced "" found)
    | top :: rest =>
      modify fun r => { r with opened := rest }
      if top.tag ≠ found then throw (.unbalanced top.tag found)
  | .text characters => modify fun r => { r with run := r.run ++ characters }
  | .reference name =>
    match Text.Reference.inData name.toList with
    | some c => modify fun r => { r with run := r.run.push c }
    | none => throw (.unknownReference name)
  | .cdata characters => modify fun r => addLeaf (Node.cdata characters) (flush o false r)
  | .comment characters => modify fun r => addLeaf (Node.comment characters) (flush o false r)
  | .instruction target data =>
    modify fun r => addLeaf (Node.instruction target data) (flush o false r)
  | .declaration tag =>
    match tag.lookup "standalone" with
    | .ok (some value) => modify fun r => { r with standalone := some value }
    | _ => pure ()
  | .doctype => pure ()

/-- Reads the tokens of a text of `size` bytes, which has to end with all elements closed. -/
def takeAll (o : Options) (size : Nat) (tokens : Readout Token.Spot Token) : Step Unit := do
  tokens.items.forM (take o)
  match tokens.flaw with
  | some spot => throw (.markup (size - Text.byteLength spot.rest) spot.flaw)
  | none =>
    match (← get).opened with
    | [] => pure ()
    | top :: _ => throw (.unbalanced top.tag "EOF")

def document (r : Reader) : Document where
  tree := r.tree
  standalone := r.standalone

end Reader

/-- A reading: the document as far as it was read, and the fault that ended it, if any. -/
structure Document.Reading where
  document : Document
  fault : Option Document.Fault
  deriving DecidableEq, Repr

/-- Reads a text. -/
def Document.read (o : Reader.Options) (text : String) : Document.Reading :=
  let text := Token.withoutMark text.toList
  match (Reader.takeAll o (Text.byteLength text) (Token.scan text)).run {} with
  | .ok _ r => ⟨r.document, none⟩
  | .error fault r => ⟨r.document, some fault⟩

/-- The document that a text holds. -/
def Document.parse (o : Reader.Options) (text : String) : Except Document.Fault Document :=
  let reading := Document.read o text
  match reading.fault with
  | none => .ok reading.document
  | some fault => .error fault

end BookMarkup
