import PulseSequencer.Text.Split

/-!
# Options and positional arguments

Arguments are options with one value each, written `--name value` or `--name=value`, and positional
ones. Only the second form takes a value that starts with a dash, unless the value is the dash alone.
After `--` all arguments are positional.
-/

namespace PulseSequencer.CommandLine

/-- Arguments sorted into options, with their values, and positional ones, each in order. -/
structure Arguments where
  options : List (String × String) := []
  positional : List String := []
  deriving DecidableEq, Repr

namespace Arguments

/-- Can the argument stand by itself, as a value or a positional argument? -/
def standsAlone (argument : String) : Bool :=
  argument == "-" || argument.toList.head? != some '-'

/-- The name and the value, if it has one, of an argument that starts with two dashes. -/
def splitOption? (argument : String) : Option (String × Option String) :=
  match argument.toList with
  | '-' :: '-' :: body =>
    match Text.cutAt '=' body with
    | some (name, value) => some (String.ofList name, some (String.ofList value))
    | none => some (String.ofList body, none)
  | _ => none

/-- Adds an option in front. -/
def withOption (name value : String) (a : Arguments) : Arguments :=
  { a with options := (name, value) :: a.options }

/-- Adds a positional argument in front. -/
def withPositional (argument : String) (a : Arguments) : Arguments :=
  { a with positional := argument :: a.positional }

/-- Sorts arguments; there are no options but those with the given names, and each has a value. -/
def sort? (names : List String) : List String → Option Arguments
  | [] => some {}
  | "--" :: rest => some { positional := rest }
  | argument :: rest =>
    if standsAlone argument then
      (sort? names rest).map (withPositional argument)
    else
      match splitOption? argument with
      | none => none
      | some (name, some value) =>
        if names.contains name then (sort? names rest).map (withOption name value) else none
      | some (name, none) =>
        match rest with
        | [] => none
        | value :: rest =>
          if names.contains name && standsAlone value then
            (sort? names rest).map (withOption name value)
          else none

/-- The values of an option that may be repeated. -/
def values (a : Arguments) (name : String) : List String :=
  (a.options.filter fun option => option.1 == name).map Prod.snd

/-- The value of an option that may occur once, read from its text. -/
def single? {α : Type} (a : Arguments) (name : String) (default : α) (read : String → Option α) :
    Option α :=
  match a.values name with
  | [] => some default
  | [value] => read value
  | _ => none

end Arguments

end PulseSequencer.CommandLine
