import Cascade.Journal
import Cascade.World

/-! Where records are written: to the console, with colours or in a plain form,
and to a file. A record is written when its level reaches that of the log and of
the place. -/

namespace Cascade.Logging

/-! ## Levels -/

/-- The upper case of a letter of a level's name. -/
def upper (c : Char) : Char := if c == 'ı' then 'I' else c.toUpper

/-- The level that a value names; texts that name none, and everything that is
neither text nor number, mean the level of information. -/
def levelOf : Value → Value
  | .int n => .int n
  | .bool b => .bool b
  | .str s =>
    let name := String.ofList (s.toList.map upper)
    match Level.names.find? fun l => l.2 == name && l.1 != 0 with
    | some l => .int l.1
    | none => .int Level.info
  | _ => .int Level.info

def threshold (level : Value) : Level :=
  match level.asNumber with
  | .int n => n
  | _ => 0

/-! ## Forms of a record -/

def consoleForm : String := "%(levelname)s: %(name)s - %(message)s"

/-- A field in a form: its name, flags, width, precision and type. -/
structure Field where
  name : String
  flags : List Char
  width : Nat
  precision : Option Nat
  type : Char

def isFlag (c : Char) : Bool := "#0+ -".toList.contains c

/-- A width or precision. -/
def size (digits : List Char) : Nat := (Text.numeral? 10 digits).getD 0

/-- A name in brackets, empty when there is none, and what follows it. -/
def fieldName (cs : List Char) : String × List Char :=
  match cs with
  | '(' :: rest =>
    (String.ofList (rest.takeWhile (· != ')')), (rest.dropWhile (· != ')')).drop 1)
  | cs => ("", cs)

/-- A field after its percent sign, and what follows it. -/
def field? (cs : List Char) : Option (Field × List Char) := do
  let (name, rest) := fieldName cs
  let flags := rest.takeWhile isFlag
  let rest := rest.dropWhile isFlag
  let width := rest.takeWhile Char.isDigit
  let rest := rest.dropWhile Char.isDigit
  let (precision, rest) := match rest with
    | '.' :: rest => (some (size (rest.takeWhile Char.isDigit)), rest.dropWhile Char.isDigit)
    | rest => (none, rest)
  match rest with
  | type :: rest => return (⟨name, flags, size width, precision, type⟩, rest)
  | [] => none

def isWordChar (c : Char) : Bool := c.isAlphanum || c == '_' || 127 < c.toNat

/-- A star or digits. -/
def dropSize : List Char → List Char
  | '*' :: rest => rest
  | cs => cs.dropWhile Char.isDigit

/-- Whether a field starts here. -/
def startsField (cs : List Char) : Bool :=
  match cs with
  | '%' :: '(' :: rest =>
    let name := rest.takeWhile isWordChar
    match rest.dropWhile isWordChar with
    | ')' :: rest =>
      let rest := dropSize (rest.dropWhile isFlag)
      let rest := match rest with
        | '.' :: '*' :: rest => rest
        | '.' :: d :: rest => if d.isDigit then rest.dropWhile Char.isDigit else '.' :: d :: rest
        | rest => rest
      !name.isEmpty && match rest with
        | type :: _ => "diouxefgcrsa%".toList.contains type.toLower
        | [] => false
    | _ => false
  | _ => false

/-- A form must have a field. -/
def isForm : List Char → Bool
  | [] => false
  | c :: rest => startsField (c :: rest) || isForm rest

/-- The fields of a record. -/
def fieldsOf (r : Record) : List (String × Value) :=
  [("name", .str r.source.name), ("levelname", .str r.level.text), ("levelno", .int r.level),
    ("message", .str r.message), ("msg", .str r.message), ("args", .tuple []),
    ("exc_info", .null), ("exc_text", .null), ("stack_info", .null),
    ("threadName", .str "MainThread"), ("processName", .str "MainProcess")]

def padded (f : Field) (s : String) : String :=
  if f.flags.contains '-' then Text.padRight f.width s else Text.padLeft f.width s

def cut (precision : Option Nat) (s : String) : String :=
  match precision with
  | some n => Text.take n s
  | none => s

/-- An integer in a base with its sign, a mark of the base when asked for, and
zeros up to a precision or, when asked for, to the width. -/
def integer (f : Field) (base : Nat) (baseMark : String) (n : Int) : String :=
  let sign := if n < 0 then "-" else if f.flags.contains '+' then "+"
    else if f.flags.contains ' ' then " " else ""
  let start := sign ++ if f.flags.contains '#' then baseMark else ""
  let digits := String.ofList (Nat.toDigits base n.natAbs)
  let zeros :=
    if f.flags.contains '0' && !f.flags.contains '-' then f.width - start.length
    else f.precision.getD 0
  start ++ Text.repeated '0' (zeros - digits.length) ++ digits

/-- The text of a value in a field, none when its type does not fit. -/
def valueText (f : Field) (v : Value) : Option String :=
  let numbered (base : Nat) (baseMark : String) : Option String := match v with
    | .int n => some (integer f base baseMark n)
    | _ => none
  match f.type with
  | 's' => some (cut f.precision v.text)
  | 'r' => some (cut f.precision v.shown)
  | 'a' => some (cut f.precision (Text.Quoted.asciiOnly v.shown))
  | 'd' | 'i' | 'u' => numbered 10 ""
  | 'x' => numbered 16 "0x"
  | 'X' => (numbered 16 "0X").map Text.upperAscii
  | 'o' => numbered 8 "0o"
  | _ => none

/-- What a field stands for; a percent sign stands for itself. -/
def fieldText (fields : List (String × Value)) (f : Field) : Option String :=
  if f.type == '%' then some "%"
  else (fields.lookup f.name).bind fun v => (valueText f v).map (padded f)

/-- A form with the fields of a record filled in, none when that cannot be done. -/
def fill (fields : List (String × Value)) : Nat → List Char → Option (List Char)
  | 0, _ => none
  | _, [] => some []
  | fuel + 1, '%' :: rest => do
    let (f, rest) ← field? rest
    let text ← fieldText fields f
    return text.toList ++ (← fill fields fuel rest)
  | fuel + 1, c :: rest => (fill fields fuel rest).map (c :: ·)

def formatted (form : String) (r : Record) : Option String :=
  (fill (fieldsOf r) (form.length + 1) form.toList).map String.ofList

/-- The line of a record in a file, after a time stamp. -/
def fileLine (stamp : String) (r : Record) : String :=
  stamp ++ " [" ++ Text.padRight 8 r.level.text ++ "] " ++ r.source.name ++ ": " ++ r.message

/-! ## Places -/

inductive Handler where
  | coloured (level : Value)
  | plain (level : Value) (form : String)
  | file (path : Path) (mode : String)

def Handler.level : Handler → Value
  | .coloured level | .plain level _ => level
  | .file _ _ => .int Level.debug

/-- A log: its level, and where it is written, in a world that has its files. -/
structure Log where
  world : World
  level : Value := .int 0
  handlers : List Handler := []

abbrev Setup := ExceptT Fault (StateM Log)

/-- What a log is set up from; the values come from settings or a caller. -/
structure Options where
  level : Value := .int Level.info
  file : Value := .null
  form : Value := .null
  fileMode : Value := .str "a"
  consoleEnabled : Value := .bool true
  coloured : Value := .bool true

def Options.ofArguments (m : Entries) : Except Fault Options :=
  let names := ["level", "log_file", "format_string", "file_mode", "console", "console_enabled",
    "use_rich"]
  let given (name : String) (default : Value) : Value := (Entries.field? m name).getD default
  if m.all fun e => names.any fun n => e.1.same (.str n) then .ok {
    level := given "level" (.int Level.info)
    file := given "log_file" .null
    form := given "format_string" .null
    fileMode := given "file_mode" (.str "a")
    consoleEnabled := given "console_enabled" (.bool true)
    coloured := given "use_rich" (.bool true) }
  else .error .unsupported

def addHandler (h : Handler) : Setup Unit :=
  modifyThe Log fun l => { l with handlers := l.handlers ++ [h] }

/-- The form of records on the console. -/
def formOf (v : Value) : Setup String := do
  match if v.truthy then v else .str consoleForm with
  | .str form => if isForm form.toList then return form else throw .badValue
  | _ => throw .unsupported

/-- How a file is opened: it is added to or replaced, or has to be new or to be
there already. -/
inductive Opening where
  | adding
  | replacing
  | creating
  | existing

def openingOf (mode : String) : Except Fault Opening :=
  let kinds := mode.toList.filter fun c => c != 't' && c != '+'
  let others := mode.toList.filter fun c => c == 't' || c == '+'
  if others.eraseDups.length != others.length then .error .badValue
  else match kinds with
    | ['a'] => .ok .adding
    | ['w'] => .ok .replacing
    | ['x'] => .ok .creating
    | ['r'] => .ok .existing
    | _ => .error .badValue

/-- Whether something on the way to a path is a file. -/
def isBlocked (w : World) (p : Path) : Bool :=
  (List.range p.names.length).any fun n => w.isFile ⟨p.root, p.names.take n⟩

/-- The bytes that an opened file begins with. -/
def contentFor (w : World) (p : Path) (mode : String) : Except Fault (List UInt8) := do
  if p.hasNul then throw .badValue
  if w.isFile p.parent then throw .fileInPlace
  if isBlocked w p then throw .notADirectory
  let opening ← openingOf mode
  if w.isDirectory p then throw .directoryInPlace
  match opening, w.isFile p with
  | .adding, _ | .existing, true => return w.bytes p
  | .replacing, _ | .creating, false => return []
  | .creating, true => throw .fileInPlace
  | .existing, false => throw .noFile

def openFile (file mode : Value) : Setup Unit := do
  match file, mode with
  | .str name, .str mode =>
    let w := (← getThe Log).world
    let path := w.directory.join (Path.ofString name)
    let path : Path := ⟨path.root, Path.climb path.names⟩
    let content ← liftM (contentFor w path mode)
    modifyThe Log fun l => { l with world := w.write path content }
    addHandler (.file path mode)
  | _, _ => throw .unsupported

/-- Sets a log up anew. -/
def setup (o : Options) : Setup Unit := do
  let level := levelOf o.level
  modifyThe Log fun l => { l with level, handlers := [] }
  if o.consoleEnabled.truthy then
    if o.coloured.truthy then addHandler (.coloured level)
    else addHandler (.plain level (← formOf o.form))
  if o.file.truthy then openFile o.file o.fileMode

/-- Sets a log up from the `logging` section of settings; a relative file is in the
project. -/
def setupFromSettings (settings : Value) (project : Option Path) : Setup Unit := do
  let whole ← liftM (Shared.entriesOf {} settings)
  let section_ ← liftM (Shared.entriesOrNone {} ((Entries.field? whole "logging").getD .null))
  let given (name : String) (default : Value) : Value := (Entries.field? section_ name).getD default
  let file ← match given "file" .null, project with
    | .str name, some project => pure (if name.isEmpty then Value.null
        else .str (project.join (Path.ofString name)).text)
    | file, some _ => if file.truthy then throw .unsupported else pure file
    | file, none => pure file
  let coloured := match given "console_type" (.str "rich") with
    | .str s => s == "rich"
    | _ => false
  setup {
    level := given "level" (.int Level.warning)
    file := file
    form := given "format" .null
    fileMode := given "file_mode" (.str "a")
    consoleEnabled := given "console_enabled" (.bool true)
    coloured := .bool coloured }

/-! ## Writing -/

/-- The level from which records are written; a log without a level of its own
writes warnings. -/
def Log.threshold (l : Log) : Level :=
  if Logging.threshold l.level == 0 then Level.warning else Logging.threshold l.level

def Log.takes (l : Log) (r : Record) : Bool := 0 < r.level && l.threshold ≤ r.level

def Log.isColoured (l : Log) : Bool :=
  l.handlers.any fun h => match h with
    | .coloured _ => true
    | _ => false

/-- Writes a record to one place; what appears on the console is given. -/
def writeTo (stamp : String) (r : Record) (l : Log × String) (h : Handler) : Log × String :=
  if r.level < Logging.threshold h.level then l
  else match h with
    | .coloured _ => l
    | .plain _ form => (l.1, l.2 ++ ((formatted form r).map (· ++ "\n")).getD "")
    | .file path _ =>
      let line := (fileLine stamp r ++ "\n").toUTF8.toList
      ({ l.1 with world := l.1.world.write path (l.1.world.bytes path ++ line) }, l.2)

/-- Writes a record; what appears on the console is given. Without any place,
warnings appear by their message. -/
def Log.write (stamp : String) (l : Log) (r : Record) : Log × String :=
  if !l.takes r then (l, "")
  else if l.handlers.isEmpty then
    (l, if Level.warning ≤ r.level then r.message ++ "\n" else "")
  else l.handlers.foldl (writeTo stamp r) (l, "")

/-- Writes records one after the other. -/
def Log.writeAll (stamp : String) (l : Log) (records : List Record) : Log × String :=
  records.foldl (fun (l, console) r =>
    let (l, more) := l.write stamp r
    (l, console ++ more)) (l, "")

end Cascade.Logging
