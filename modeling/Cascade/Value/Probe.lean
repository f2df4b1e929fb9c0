import Cascade.Value.Text

/-! Texts that are looked for in values. What a name can be, in a configuration
and everything around it, is among them, so they bound how long a chain of
different names can get. -/

namespace Cascade

/-- Which texts count: of the keys of mappings, and of values without parts. -/
structure Probe where
  key : Value → List String
  leaf : Value → List String
  leaf_null : leaf .null = []

namespace Probe

/-- The keys of mappings, as texts. -/
def keys : Probe := ⟨fun k => [k.text], fun _ => [], rfl⟩

/-- The values that are texts. -/
def texts : Probe := ⟨fun _ => [], fun v => v.str?.toList, rfl⟩

variable (p : Probe)

mutual

/-- What a probe finds in a value, at any depth. -/
def found : Value → List String
  | .list items | .tuple items => foundInItems items
  | .mapping entries => foundInEntries entries
  | .object _ members => foundInMembers members
  | .null => p.leaf .null
  | .bool b => p.leaf (.bool b)
  | .int n => p.leaf (.int n)
  | .float x => p.leaf (.float x)
  | .str s => p.leaf (.str s)
  | .date d => p.leaf (.date d)
  | .moment t => p.leaf (.moment t)
  | .bytes bs => p.leaf (.bytes bs)
  | .shared name => p.leaf (.shared name)

def foundInItems : List Value → List String
  | [] => []
  | v :: rest => found v ++ foundInItems rest

def foundInEntries : List (Value × Value) → List String
  | [] => []
  | (k, v) :: rest => p.key k ++ found v ++ foundInEntries rest

def foundInMembers : List (String × Value) → List String
  | [] => []
  | (_, v) :: rest => found v ++ foundInMembers rest

end

end Probe

end Cascade
