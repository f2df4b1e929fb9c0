import Cascade.Fault
import Cascade.Text.Basic

/-! Names of packages. A plugin or config is named by its package, whose name
starts with the kind of package it is, or by a shorthand that leaves the kind
out. A scoped name begins with `@` and its scope comes before the first slash.
The module of a package has the scope as its parent. -/

namespace Cascade.Package

def pluginKind : String := "eslint-plugin"

def configKind : String := "eslint-config"

/-- A text without the line break that may end it. -/
def withoutFinalBreak (s : String) : String :=
  match s.toList.reverse with
  | '\n' :: rest => String.ofList rest.reverse
  | _ => s

def isOneLine (s : String) : Bool := !(withoutFinalBreak s).toList.contains '\n'

/-- A kind of package, or a name of that kind. -/
def hasKind (kind name : String) : Bool :=
  withoutFinalBreak name == kind || name == kind || Text.startsWith name (kind ++ "-")

/-- The package of a name after its scope. -/
def normalizeScoped (kind scope rest : String) : String :=
  let line := withoutFinalBreak rest
  if scope != "@" && (rest == kind || line == kind || line == "") then
    scope ++ "/" ++ kind ++ Text.drop (if rest == kind then rest.length else line.length) rest
  else if hasKind kind ((Text.fields '/' rest).headD "") || scope == "@" || !isOneLine rest then
    scope ++ "/" ++ rest
  else scope ++ "/" ++ kind ++ "-" ++ rest

/-- The package that a name stands for. The scope without a name is no name. -/
def normalize (kind name : String) : Except Fault String :=
  let name := Text.swap '\\' '/' name
  if Text.startsWith name "@" then
    match Text.cutFirst '/' name with
    | some (scope, rest) => .ok (normalizeScoped kind scope rest)
    | none => if name == "@" then .error .noItem else .ok (name ++ "/" ++ kind)
  else if Text.startsWith name (kind ++ "-") then .ok name
  else .ok (kind ++ "-" ++ name)

/-- The shortest name of a package. -/
def shorthand (kind name : String) : String :=
  if Text.startsWith name "@" then
    match Text.cutFirst '/' name with
    | some (scope, rest) =>
      let ending := withoutFinalBreak (Text.drop (kind.length + 1) rest)
      if scope == "@" then name
      else if rest == kind || withoutFinalBreak rest == kind then scope
      else if Text.startsWith rest (kind ++ "-") && ending != "" && !ending.toList.contains '\n' then
        scope ++ "/" ++ ending
      else name
    | none => name
  else if Text.startsWith name (kind ++ "-") then Text.drop (kind.length + 1) name
  else name

def modulePart (s : String) : String := Text.swap '.' '_' (Text.swap '-' '_' s)

/-- The module of a package: names that modules can have, separated by points. -/
def moduleName (package : String) : String :=
  String.intercalate "." ((Text.fields '/' (Text.dropLeading '@' package)).map modulePart)

end Cascade.Package
