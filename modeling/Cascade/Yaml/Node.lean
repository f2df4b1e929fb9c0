import Cascade.Yaml.Tag
import Cascade.Yaml.Token.Lexer

/-! The tree of a YAML document. A node has a type, given by its tag or by its
written form, and the place where it begins; an alias is the node that it
names. A text may hold one document. -/

namespace Cascade.Yaml

inductive Node where
  | scalar (tag : Tag) (text : String) (mark : Mark)
  | sequence (tag : Tag) (items : List Node) (mark : Mark)
  | mapping (tag : Tag) (entries : List (Node × Node)) (mark : Mark)
  /-- An alias inside the node that it names. -/
  | cyclic (mark : Mark)

namespace Node

def tag : Node → Tag
  | .scalar tag _ _ | .sequence tag _ _ | .mapping tag _ _ => tag
  | .cyclic _ => .other ""

def mark : Node → Mark
  | .scalar _ _ mark | .sequence _ _ mark | .mapping _ _ mark | .cyclic mark => mark

/-- A place where a node may stand but nothing is written. -/
def empty (mark : Mark) : Node := .scalar .null "" mark

end Node

/-- What is left to read of a document, and the names known so far. -/
structure Reading where
  rest : List Token
  failure : Option Refusal
  handles : List (String × String) := []
  anchors : List (String × Node) := []

abbrev Reader := StateT Reading (Except Refusal)

namespace Reader

variable {α : Type}

def fail (problem : String) (mark : Mark) : Reader α := throw (.malformed problem mark)

/-- The next token, which stays. -/
def peek : Reader Token := do
  let s ← get
  match s.rest with
  | t :: _ => return t
  | [] => throw (s.failure.getD (.malformed "a missing token" Mark.start))

def skip : Reader Unit := modify fun s => { s with rest := s.rest.drop 1 }

def next : Reader Token := do
  let t ← peek
  skip
  return t

/-! ## Anchors and tags -/

structure Properties where
  start : Option Mark := none
  anchor : Option String := none
  tag : Option (Option String × String × Mark) := none

/-- Anchor and tag of a node, in either order. -/
def properties : Reader Properties := do
  let first ← peek
  match first.kind with
  | .anchor name =>
    skip
    let second ← peek
    match second.kind with
    | .tag handle suffix =>
      skip
      return ⟨some first.start, some name, some (handle, suffix, second.start)⟩
    | _ => return ⟨some first.start, some name, none⟩
  | .tag handle suffix =>
    skip
    let second ← peek
    match second.kind with
    | .anchor name =>
      skip
      return ⟨some first.start, some name, some (handle, suffix, first.start)⟩
    | _ => return ⟨some first.start, none, some (handle, suffix, first.start)⟩
  | _ => return {}

/-- The name that a written tag stands for. -/
def tagName : Option (Option String × String × Mark) → Reader (Option String)
  | none => return none
  | some (none, suffix, _) => return some suffix
  | some (some handle, suffix, mark) => do
    match (← get).handles.lookup handle with
    | some replacement => return some (replacement ++ suffix)
    | none => fail "an undefined tag handle" mark

/-- The type of a collection: the tag `!` by itself means the usual one. -/
def collectionTag (usual : Tag) : Option String → Tag
  | none | some "!" => usual
  | some name => Tag.ofName name

/-- The type of a scalar: without a tag its form decides, if it is plain; the
tag `!` by itself makes the form decide in any case. -/
def scalarTag (text : String) (plain : Bool) : Option String → Tag
  | none => if plain then Tag.ofPlain text else .str
  | some "!" => Tag.ofPlain text
  | some name => Tag.ofName name

/-- A name may be given to one node only. -/
def claimAnchor (anchor : Option String) (mark : Mark) : Reader Unit := do
  match anchor with
  | none => return ()
  | some name =>
    if ((← get).anchors.lookup name).isSome then fail "a repeated anchor" mark
    else modify fun s => { s with anchors := (name, .cyclic mark) :: s.anchors }

def bindAnchor (anchor : Option String) (node : Node) : Reader Node := do
  match anchor with
  | none => return node
  | some name =>
    modify fun s => { s with anchors := (name, node) :: s.anchors }
    return node

/-! ## Nodes -/

/-- Where a node stands: only blocks hold block collections, and only entries of
a block mapping hold sequences that are not indented. -/
inductive Place where
  | block
  | blockEntry
  | flow
  deriving DecidableEq

mutual

def node : Nat → Place → Reader Node
  | 0, _ => throw (.fault .endless)
  | fuel + 1, place => do
    let first ← peek
    match first.kind with
    | .alias name =>
      skip
      match (← get).anchors.lookup name with
      | some n => return n
      | none => fail "an undefined alias" first.start
    | _ =>
      let props ← properties
      let tag ← tagName props.tag
      let token ← peek
      let start := props.start.getD token.start
      let sequence (items : Reader (List Node)) : Reader Node := do
        claimAnchor props.anchor start
        bindAnchor props.anchor (.sequence (collectionTag .seq tag) (← items) start)
      let mapping (entries : Reader (List (Node × Node))) : Reader Node := do
        claimAnchor props.anchor start
        bindAnchor props.anchor (.mapping (collectionTag .map tag) (← entries) start)
      let scalar (text : String) (plain : Bool) : Reader Node := do
        claimAnchor props.anchor start
        bindAnchor props.anchor (.scalar (scalarTag text plain tag) text start)
      match token.kind, place with
      | .blockEntry, .blockEntry => sequence (flatEntries fuel)
      | .scalar text plain, _ =>
        skip
        scalar text plain
      | .flowSequenceStart, _ => sequence (do skip; flowItems fuel true)
      | .flowMappingStart, _ => mapping (do skip; flowEntries fuel true)
      | .blockSequenceStart, .block | .blockSequenceStart, .blockEntry =>
        sequence (do skip; blockItems fuel)
      | .blockMappingStart, .block | .blockMappingStart, .blockEntry =>
        mapping (do skip; blockEntries fuel)
      | _, _ =>
        if props.start.isSome then scalar "" true
        else fail "a missing node" token.start

/-- A node, or an empty one when one of the given tokens follows at once. -/
def nodeUnless : Nat → Place → List TokenKind → Mark → Reader Node
  | 0, _, _, _ => throw (.fault .endless)
  | fuel + 1, place, stops, mark => do
    if stops.contains (← peek).kind then return Node.empty mark else node fuel place

/-- The value after a key, empty when there is no colon. -/
def valueUnless : Nat → Place → List TokenKind → Reader Node
  | 0, _, _ => throw (.fault .endless)
  | fuel + 1, place, stops => do
    let t ← peek
    if t.kind == .value then
      skip
      nodeUnless fuel place stops t.finish
    else return Node.empty t.start

def blockItems : Nat → Reader (List Node)
  | 0 => throw (.fault .endless)
  | fuel + 1 => do
    let t ← next
    match t.kind with
    | .blockEntry =>
      let item ← nodeUnless fuel .block [.blockEntry, .blockEnd] t.finish
      return item :: (← blockItems fuel)
    | .blockEnd => return []
    | _ => fail "a missing end of a block sequence" t.start

/-- The items of a sequence that is not indented: what follows ends it. -/
def flatEntries : Nat → Reader (List Node)
  | 0 => throw (.fault .endless)
  | fuel + 1 => do
    let t ← peek
    if t.kind == .blockEntry then
      skip
      let item ← nodeUnless fuel .block [.blockEntry, .key, .value, .blockEnd] t.finish
      return item :: (← flatEntries fuel)
    else return []

def blockEntries : Nat → Reader (List (Node × Node))
  | 0 => throw (.fault .endless)
  | fuel + 1 => do
    let t ← peek
    let stops := [.key, .value, .blockEnd]
    match t.kind with
    | .key =>
      skip
      let key ← nodeUnless fuel .blockEntry stops t.finish
      let value ← valueUnless fuel .blockEntry stops
      return (key, value) :: (← blockEntries fuel)
    | .blockEnd =>
      skip
      return []
    | _ => fail "a missing end of a block mapping" t.start

/-- Entries of a flow sequence; a single key with its value is a mapping. -/
def flowItems : Nat → Bool → Reader (List Node)
  | 0, _ => throw (.fault .endless)
  | fuel + 1, isFirst => do
    let t ← peek
    if t.kind == .flowSequenceEnd then
      skip
      return []
    else
      if !isFirst then
        if t.kind == .flowEntry then skip else fail "a missing comma or bracket" t.start
      let t ← peek
      match t.kind with
      | .key =>
        skip
        let key ← nodeUnless fuel .flow [.value, .flowEntry, .flowSequenceEnd] t.finish
        let value ← valueUnless fuel .flow [.flowEntry, .flowSequenceEnd]
        return .mapping .map [(key, value)] t.start :: (← flowItems fuel false)
      | .flowSequenceEnd =>
        skip
        return []
      | _ =>
        let item ← node fuel .flow
        return item :: (← flowItems fuel false)

def flowEntries : Nat → Bool → Reader (List (Node × Node))
  | 0, _ => throw (.fault .endless)
  | fuel + 1, isFirst => do
    let t ← peek
    if t.kind == .flowMappingEnd then
      skip
      return []
    else
      if !isFirst then
        if t.kind == .flowEntry then skip else fail "a missing comma or brace" t.start
      let t ← peek
      match t.kind with
      | .key =>
        skip
        let key ← nodeUnless fuel .flow [.value, .flowEntry, .flowMappingEnd] t.finish
        let value ← valueUnless fuel .flow [.flowEntry, .flowMappingEnd]
        return (key, value) :: (← flowEntries fuel false)
      | .flowMappingEnd =>
        skip
        return []
      | _ =>
        let key ← node fuel .flow
        let after ← peek
        return (key, Node.empty after.start) :: (← flowEntries fuel false)

end

/-! ## Documents -/

def usualHandles : List (String × String) := [("!", "!"), ("!!", Tag.domain)]

/-- The directives in front of a document, with the major version if given. -/
def directives : Nat → Bool → List (String × String) → Reader (List (String × String))
  | 0, _, _ => throw (.fault .endless)
  | fuel + 1, versioned, handles => do
    let t ← peek
    match t.kind with
    | .versionDirective major =>
      skip
      if versioned then fail "a repeated version" t.start
      else if major != 1 then fail "an unknown version" t.start
      else directives fuel true handles
    | .tagDirective handle replacement =>
      skip
      if (handles.lookup handle).isSome then fail "a repeated tag handle" t.start
      else directives fuel versioned (handles ++ [(handle, replacement)])
    | .otherDirective =>
      skip
      directives fuel versioned handles
    | _ => return handles

/-- Directives and the mark that begins a document. -/
def documentStart (fuel : Nat) : Reader Unit := do
  let handles ← directives fuel false []
  let t ← next
  if t.kind == .documentStart then
    modify fun s => { s with handles := handles ++ usualHandles, anchors := [] }
  else fail "a missing document start" t.start

def isDirective : TokenKind → Bool
  | .versionDirective _ | .tagDirective _ _ | .otherDirective => true
  | _ => false

def dropDocumentEnds : Nat → Reader Unit
  | 0 => return ()
  | fuel + 1 => do
    if (← peek).kind == .documentEnd then
      skip
      dropDocumentEnds fuel

/-- The document of a text, none if the text holds none. -/
def document (fuel : Nat) : Reader (Option Node) := do
  let first ← peek
  if first.kind == .streamEnd then return none
  let root ←
    if isDirective first.kind || first.kind == .documentStart then do
      documentStart fuel
      let t ← peek
      if isDirective t.kind || [.documentStart, .documentEnd, .streamEnd].contains t.kind then
        pure (Node.empty t.start)
      else node fuel .block
    else do
      modify fun s => { s with handles := usualHandles }
      node fuel .block
  dropDocumentEnds fuel
  let t ← peek
  if t.kind == .streamEnd then return some root
  else
    documentStart fuel
    fail "a second document" t.start

end Reader

/-- The document that tokens make up. -/
def Node.ofTokens (tokens : Tokens) : Except Refusal (Option Node) :=
  (Reader.document (4 * tokens.items.length + 16)).run' ⟨tokens.items, tokens.failure, [], []⟩

end Cascade.Yaml
