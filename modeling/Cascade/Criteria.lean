import Cascade.Failure

/-! The file patterns of overrides. Patterns are kept as they are written;
nested overrides apply where all their pairs of patterns do. -/

namespace Cascade

/-- The patterns of one override, for files that it takes and that it leaves out. -/
structure PatternPair where
  includes : Option (List String)
  excludes : Option (List String)
  deriving DecidableEq, Repr

structure Criteria where
  pairs : List PatternPair
  /-- The directory that patterns are relative to. -/
  base : Option String
  deriving DecidableEq, Repr

namespace Criteria

/-- A pattern or a list of patterns; null and the empty list are none. -/
def patternList (store : Shared) (key source : String) (v : Value) :
    Except Problem (Option (List String)) :=
  match store.view v with
  | .null => .ok none
  | .str s => .ok (some [s])
  | .list items => match Value.strings? items with
    | some [] => .ok none
    | some patterns => .ok (some patterns)
    | none => .error (.patternsNotStrings key source)
  | _ => .error (.patternsNotStrings key source)

/-- The parts of a pattern, either separator being one. -/
def segments (pattern : String) : List String := Text.fields '/' (Text.swap '\\' '/' pattern)

/-- Whether a pattern stays below its base directory: it neither starts with a
separator nor has `..` among its parts, after any marks of negation. -/
def isConfined (pattern : String) : Bool :=
  let body := Text.dropLeading '!' pattern
  !Text.startsWith body "/" && !Text.startsWith body "\\" && !(segments body).contains ".."

/-- The criteria of one override, none when it has no patterns. -/
def make (store : Shared) (files excluded : Value) (base : Option String) (source : String) :
    Except Problem (Option Criteria) := do
  let includes ← patternList store "files" source files
  let excludes ← patternList store "excludedFiles" source excluded
  match (includes.getD [] ++ excludes.getD []).find? fun p => !isConfined p with
  | some pattern => throw (.invalidPattern pattern source)
  | none =>
    if includes.isNone && excludes.isNone then return none
    else return some ⟨[⟨includes, excludes⟩], base⟩

/-- Both criteria together; the base is that of the outer ones. -/
def both (outer inner : Criteria) : Criteria := ⟨outer.pairs ++ inner.pairs, outer.base⟩

def combine : Option Criteria → Option Criteria → Option Criteria
  | none, inner => inner
  | some outer, none => some outer
  | some outer, some inner => some (outer.both inner)

end Criteria

/-! ## As values -/

def Value.ofStrings : Option (List String) → Value
  | none => .null
  | some patterns => .list (patterns.map .str)

def PatternPair.value (p : PatternPair) : Value :=
  .object .patternPair
    [("includes", Value.ofStrings p.includes), ("excludes", Value.ofStrings p.excludes)]

def Criteria.value (c : Criteria) : Value :=
  .object .criteria [("patterns", .list (c.pairs.map PatternPair.value)),
    ("base_path", Problem.optional c.base)]

end Cascade
