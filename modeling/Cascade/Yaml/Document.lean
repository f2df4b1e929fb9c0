import Cascade.Yaml.Node

/-! The value of a YAML document. Mappings merged into another come before its
own entries, so its own values win while the merged keys keep their places. A
document is checked level by level from its root, each node before its
children, and the first thing wrong in that order is reported. -/

namespace Cascade.Yaml

namespace Node

/-- The types of collections. -/
def isCollectionTag : Tag → Bool
  | .seq | .map | .omap | .pairs | .set => true
  | _ => false

/-- The text of a scalar, or of the value of a mapping under the key `=`. -/
def scalarText : Node → Option String
  | .scalar _ text _ => some text
  | .mapping _ entries _ => go entries
  | _ => none
where
  go : List (Node × Node) → Option String
  | [] => none
  | (key, value) :: rest => if key.tag == .value then scalarText value else go rest

/-- Bytes written in base 64. -/
def binaryValue (text : String) : Option Value :=
  if text.toList.all (·.toNat < 128) then
    (Tag.base64Bytes text.toList 0 0 0 []).map .bytes
  else none

/-- What a node of a scalar type stands for. -/
def scalar? (n : Node) : Except Refusal Value :=
  match n.scalarText with
  | none => .error (.malformed "a collection in the place of a scalar" n.mark)
  | some text =>
    if n.tag == .binary then
      match binaryValue text with
      | some v => .ok v
      | none => .error (.malformed "bytes that are not in base 64" n.mark)
    else match Tag.scalarValue n.tag text with
      | some (.ok v) => .ok v
      | some (.error f) => .error (.fault f)
      | none => .error (.malformed "an unknown tag" n.mark)

/-! ## Checking -/

/-- What can be wrong with a node apart from its children. -/
def checkHead (n : Node) : Except Refusal Unit :=
  match n with
  | .cyclic _ => .error (.fault .endless)
  | n =>
    if isCollectionTag n.tag then .ok ()
    else match n.tag with
      | .merge | .value | .other _ => .error (.malformed "an unknown tag" n.mark)
      | _ => n.scalar?.map fun _ => ()

/-- The entries of a mapping with the merged ones first. -/
def mergedEntries : Node → Except Refusal (List (Node × Node))
  | .mapping _ entries _ => do
    let (merged, own) ← split entries
    return merged ++ own
  | n => .error (.malformed "a missing mapping" n.mark)
where
  split : List (Node × Node) → Except Refusal (List (Node × Node) × List (Node × Node))
    | [] => .ok ([], [])
    | (key, value) :: rest => do
      if key.tag == .merge then
        let sources ← sourcesOf value
        let (merged, own) ← split rest
        return (sources ++ merged, own)
      else
        let (merged, own) ← split rest
        let key := if key.tag == .value then .scalar .str (key.scalarText.getD "") key.mark else key
        return (merged, (key, value) :: own)
  sourcesOf : Node → Except Refusal (List (Node × Node))
    | .mapping _ entries _ => do
      let (merged, own) ← split entries
      return merged ++ own
    | .sequence _ items _ => listed items
    | n => .error (.malformed "a merge of something that is no mapping" n.mark)
  /-- The entries of listed mappings, those of the last one first. -/
  listed : List Node → Except Refusal (List (Node × Node))
    | [] => .ok []
    | n :: rest => do
      let first ← match n with
        | .mapping _ entries _ => do
          let (merged, own) ← split entries
          pure (merged ++ own)
        | n => .error (.malformed "a merge of something that is no mapping" n.mark)
      return (← listed rest) ++ first

/-- Checks the children of a collection and gives those to check further. -/
def checkChildren (n : Node) : Except Refusal (List Node) :=
  match n with
  | .cyclic _ => .error (.fault .endless)
  | n => match n.tag with
    | .seq => match n with
      | .sequence _ items _ => do
        items.forM checkHead
        return items
      | n => .error (.malformed "a missing sequence" n.mark)
    | .omap | .pairs => match n with
      | .sequence _ items _ => do
        let children ← items.mapM fun item => match item with
          | .mapping _ [(key, value)] _ => do
            key.checkHead
            value.checkHead
            return [key, value]
          | item => .error (.malformed "a missing mapping of one key" item.mark)
        return children.flatten
      | n => .error (.malformed "a missing sequence" n.mark)
    | _ => do
      let entries ← n.mergedEntries
      entries.mapM fun (key, value) => do
        key.checkHead
        if isCollectionTag key.tag then
          throw (.malformed "a collection as a key" key.mark)
        value.checkHead
        return value

mutual

def depth : Node → Nat
  | .sequence _ items _ => itemsDepth items + 1
  | .mapping _ entries _ => entriesDepth entries + 1
  | _ => 1

def itemsDepth : List Node → Nat
  | [] => 0
  | n :: rest => max n.depth (itemsDepth rest)

def entriesDepth : List (Node × Node) → Nat
  | [] => 0
  | (k, v) :: rest => max (max k.depth v.depth) (entriesDepth rest)

end

/-- Checks the nodes of one level after those of the level above. -/
def checkLevels : Nat → List Node → Except Refusal Unit
  | 0, _ => .ok ()
  | levels + 1, nodes => do
    let below ← (nodes.filter fun n => isCollectionTag n.tag).mapM checkChildren
    if below.flatten.isEmpty then return ()
    else checkLevels levels below.flatten

def check (n : Node) : Except Refusal Unit := do
  n.checkHead
  checkLevels n.depth [n]

/-! ## Building -/

mutual

/-- The value of a node that has passed the check. -/
def value (n : Node) : Value :=
  match n with
  | .scalar tag text mark => (Node.scalar tag text mark).scalar?.toOption.getD .null
  | .sequence tag items _ =>
    if tag == .omap || tag == .pairs then .list (pairValues items) else .list (itemValues items)
  | .mapping tag entries mark =>
    if tag == .map then
      let (merged, own) := entryValues entries
      .mapping (Entries.ofPairs (merged ++ own))
    else if tag == .set then .object (.instanceOf "set") []
    else (Node.mapping tag entries mark).scalar?.toOption.getD .null
  | .cyclic _ => .null

def itemValues : List Node → List Value
  | [] => []
  | n :: rest => n.value :: itemValues rest

/-- The first pairs of mappings, as tuples. -/
def pairValues : List Node → List Value
  | [] => []
  | .mapping _ entries _ :: rest =>
    (match (entryPairs entries).head? with
      | some (k, v) => [.tuple [k, v]]
      | none => []) ++ pairValues rest
  | _ :: rest => pairValues rest

def entryPairs : List (Node × Node) → List (Value × Value)
  | [] => []
  | (k, v) :: rest => (k.value, v.value) :: entryPairs rest

/-- The pairs that a mapping takes from others, and its own. -/
def entryValues : List (Node × Node) → List (Value × Value) × List (Value × Value)
  | [] => ([], [])
  | (k, v) :: rest =>
    let (merged, own) := entryValues rest
    if k.tag == .merge then (v.mergedPairs ++ merged, own)
    else
      let key := if k.tag == .value then .str (k.scalarText.getD "") else k.value
      (merged, (key, v.value) :: own)

/-- The pairs of a mapping, or of listed mappings with those of the last first. -/
def mergedPairs : Node → List (Value × Value)
  | .mapping _ entries _ =>
    let (merged, own) := entryValues entries
    merged ++ own
  | .sequence _ items _ => listedPairs items
  | _ => []

def listedPairs : List Node → List (Value × Value)
  | [] => []
  | n :: rest => listedPairs rest ++ n.mergedPairs

end

end Node

/-- The value of a text that holds one document; an empty one is null. -/
def read (cs : List Char) : Except Refusal Value := do
  match ← Node.ofTokens (Tokens.ofText cs) with
  | none => return .null
  | some root =>
    root.check
    return root.value

end Cascade.Yaml
