import Cascade.Failure

/-! Records of what happens while configurations are worked on. A computation
that keeps a journal gives its records whether or not it succeeds. -/

namespace Cascade

/-- The importance of a record; the named levels stand at tens. -/
abbrev Level := Int

namespace Level

def debug : Level := 10
def info : Level := 20
def warning : Level := 30
def error : Level := 40
def critical : Level := 50

def names : List (Level × String) :=
  [(debug, "DEBUG"), (info, "INFO"), (warning, "WARNING"), (error, "ERROR"),
    (critical, "CRITICAL"), (0, "NOTSET")]

def text (level : Level) : String := (names.lookup level).getD ("Level " ++ toString level)

end Level

/-- The names that records come under, all below the first one. -/
structure Source where
  name : String
  deriving DecidableEq, Repr

namespace Source

def top : Source := ⟨"flatcompat"⟩
def conversion : Source := ⟨"flatcompat.translator"⟩
def resolver : Source := ⟨"flatcompat.resolver"⟩
def modules : Source := ⟨"flatcompat.modules"⟩
def flattener : Source := ⟨"flatcompat.compat"⟩
def command : Source := ⟨"flatcompat.cli.translate"⟩

/-- A name below the top one, unless it is that already. -/
def ofName (name : String) : Source :=
  if name == top.name || Text.startsWith name (top.name ++ ".") then ⟨name⟩
  else ⟨top.name ++ "." ++ name⟩

end Source

structure Record where
  level : Level
  source : Source
  message : String
  deriving DecidableEq, Repr

def Record.line (r : Record) : String := r.level.text ++ " " ++ r.source.name ++ ": " ++ r.message

/-- The result of a computation together with what it recorded. -/
structure Logged (α : Type) where
  records : List Record
  result : Except Failure α

namespace Logged

variable {α β : Type}

def pure (a : α) : Logged α := ⟨[], .ok a⟩

def bind (x : Logged α) (f : α → Logged β) : Logged β :=
  match x.result with
  | .error e => ⟨x.records, .error e⟩
  | .ok a => ⟨x.records ++ (f a).records, (f a).result⟩

instance : Monad Logged where
  pure := pure
  bind := bind

def fail (e : Failure) : Logged α := ⟨[], .error e⟩

def ofFault (x : Except Fault α) : Logged α := ⟨[], x.mapError .fault⟩

def record (level : Level) (source : Source) (message : String) : Logged Unit :=
  ⟨[⟨level, source, message⟩], .ok ()⟩

@[simp] theorem result_pure (a : α) : (Pure.pure a : Logged α).result = .ok a := rfl

@[simp] theorem result_fail (e : Failure) : (fail e : Logged α).result = .error e := rfl

@[simp] theorem result_record (level : Level) (source : Source) (message : String) :
    (record level source message).result = .ok () := rfl

/-- Records do not change a result. -/
@[simp] theorem result_bind (x : Logged α) (f : α → Logged β) :
    (x >>= f).result = x.result >>= fun a => (f a).result := by
  cases x with
  | mk records result =>
    cases result <;> rfl

end Logged

end Cascade
