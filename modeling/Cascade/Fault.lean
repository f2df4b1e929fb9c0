/-! The ways in which a computation over values of unknown shape goes wrong by
itself, as opposed to a check that a program makes and reports. -/

namespace Cascade

inductive Fault where
  /-- The operation is not defined for a value of this type. -/
  | unsupported
  /-- The value has no member of this name. -/
  | noMember
  /-- A position past the end of a sequence. -/
  | noItem
  /-- A value of the right type that the operation cannot take. -/
  | badValue
  /-- A mapping without the key asked for. -/
  | noKey
  /-- Bytes that are not text. -/
  | notUtf8
  /-- A closing mark in console text that matches no opening one. -/
  | badMarkup
  /-- A value that contains itself where a finite one is needed. -/
  | endless
  /-- A directory where a file is needed. -/
  | directoryInPlace
  /-- A file where a directory is needed or where no file may be. -/
  | fileInPlace
  /-- A path that goes through a file. -/
  | notADirectory
  | noFile
  deriving DecidableEq, Repr

end Cascade
