import Cascade.Text.Basic

/-! The arguments of a command: options, each with one or more names, and what
follows them. Options end at the first argument that is none, or at two dashes.
A long name may have its value after an equals sign; names of one letter may
stand together, and the last of them may have its value attached. -/

namespace Cascade.Command

/-- An option, and whether a value belongs to it. -/
structure OptionSpec where
  key : String
  names : List String
  takesValue : Bool := true

/-- Options in the order given, and the other arguments. -/
structure Arguments where
  options : List (String × String) := []
  rest : List String := []

namespace Arguments

def named? (specs : List OptionSpec) (name : String) : Option OptionSpec :=
  specs.find? fun s => s.names.contains name

def withOption (key value : String) (a : Arguments) : Arguments :=
  { a with options := (key, value) :: a.options }

/-- The letters of a group of options. The first part are those without value;
then comes one that takes a value, with the letters attached to it. -/
def letters (specs : List OptionSpec) :
    List Char → Option (List String × Option (String × List Char))
  | [] => some ([], none)
  | c :: rest =>
    match named? specs (String.ofList ['-', c]) with
    | none => none
    | some s =>
      if s.takesValue then some ([], some (s.key, rest))
      else (letters specs rest).map fun (keys, last) => (s.key :: keys, last)

def withFlags (keys : List String) (a : Arguments) : Arguments :=
  keys.foldr (fun k a => a.withOption k "") a

/-- The arguments of a command, none when they are not used as they should be. -/
def parse? (specs : List OptionSpec) : List String → Option Arguments
  | [] => some {}
  | arg :: rest =>
    if arg == "--" then some { rest }
    else if !Text.startsWith arg "-" || arg == "-" then some { rest := arg :: rest }
    else
      let (name, attached) := match Text.cutFirst '=' arg with
        | some (name, value) => (name, some value)
        | none => (arg, none)
      let long := if Text.startsWith name "--" then named? specs name else none
      match long, attached with
      | some s, some value =>
        if s.takesValue then (parse? specs rest).map (withOption s.key value) else none
      | some s, none =>
        if !s.takesValue then (parse? specs rest).map (withOption s.key "")
        else match rest with
          | value :: rest => (parse? specs rest).map (withOption s.key value)
          | [] => none
      | none, _ =>
        if Text.startsWith arg "--" then none
        else match letters specs (arg.toList.drop 1) with
          | none => none
          | some (keys, none) => (parse? specs rest).map (withFlags keys)
          | some (keys, some (key, [])) => match rest with
            | value :: rest => (parse? specs rest).map fun a => (a.withOption key value).withFlags keys
            | [] => none
          | some (keys, some (key, value)) =>
            (parse? specs rest).map fun a => (a.withOption key (String.ofList value)).withFlags keys

/-- The value of an option; of repeated ones the last counts. -/
def value? (a : Arguments) (key : String) : Option String := a.options.reverse.lookup key

/-- The first given of some options. -/
def firstOf? (a : Arguments) (keys : List String) : Option String :=
  (a.options.find? fun o => keys.contains o.1).map Prod.fst

end Arguments

end Cascade.Command
