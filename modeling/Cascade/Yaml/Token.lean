import Cascade.Yaml.Cursor

/-! The words of a YAML text. Besides what is written, the tokens mark where
block collections open, at a deeper indentation, and close. -/

namespace Cascade.Yaml

inductive TokenKind where
  | streamEnd
  | versionDirective (major : Nat)
  | tagDirective (handle replacement : String)
  | otherDirective
  | documentStart
  | documentEnd
  | blockSequenceStart
  | blockMappingStart
  | blockEnd
  | flowSequenceStart
  | flowSequenceEnd
  | flowMappingStart
  | flowMappingEnd
  | blockEntry
  | flowEntry
  | key
  | value
  | alias (name : String)
  | anchor (name : String)
  | tag (handle : Option String) (suffix : String)
  | scalar (text : String) (plain : Bool)
  deriving DecidableEq, Repr

structure Token where
  kind : TokenKind
  start : Mark
  finish : Mark

/-- The tokens of a text up to the point where it stops being readable, and
what is wrong there. -/
structure Tokens where
  items : List Token
  failure : Option Refusal

end Cascade.Yaml
