/-! Command-line options and the help text that describes them. -/
namespace Eleven.Tools

structure Switch where
  short : Char
  long : String
  description : String
  /-- What holds if the option is not given, as the help text shows it. -/
  standard : String
  takesValue : Bool
deriving DecidableEq, Repr

structure Positional where
  name : String
  description : String
  /-- Any number of arguments. -/
  many : Bool
deriving DecidableEq, Repr

structure Usage where
  tool : String
  options : List Switch
  positionals : List Positional
deriving DecidableEq, Repr

def helpSwitch : Switch := ⟨'h', "help", "Print this help message.", "", false⟩

namespace Usage

def allOptions (u : Usage) : List Switch := helpSwitch :: u.options

def optionLine (o : Switch) : String :=
  "\t-" ++ String.singleton o.short ++ ", --" ++ o.long ++ "\t" ++ o.description ++
    (if o.standard = "" then "" else " (default: " ++ o.standard ++ ")") ++ "\n"

def help (u : Usage) : String :=
  "Usage:\n  " ++ u.tool ++ " [OPTIONS]..." ++
    String.join (u.positionals.map fun p =>
      " [" ++ p.name ++ "]" ++ if p.many then "..." else "") ++
    "\n\nMain options:\n" ++ String.join (u.allOptions.map optionLine) ++
    "\n\nPositional arguments:\n" ++
    String.join (u.positionals.map fun p => "\t" ++ p.name ++ "\t" ++ p.description ++ "\n") ++ "\n"

end Usage

/-- The arguments of a run: values by option, the latest first, and the rest in order. -/
structure Arguments where
  given : List (Char × String)
  positional : List String
deriving DecidableEq, Repr

namespace Arguments

def empty : Arguments := ⟨[], []⟩

def has (a : Arguments) (short : Char) : Bool := (a.given.lookup short).isSome

def value (a : Arguments) (short : Char) (standard : String) : String :=
  (a.given.lookup short).getD standard

end Arguments

def Switch.isNamed (o : Switch) (arg : String) : Bool :=
  arg == "-" ++ String.singleton o.short || arg == "--" ++ o.long

/-- Why arguments are refused; each names the argument as it was given. -/
inductive ArgumentFault where
  | unknownOption (arg : String)
  /-- An option that takes a value stands last. -/
  | missingValue (arg : String)
deriving DecidableEq, Repr

def ArgumentFault.message : ArgumentFault → String
  | .unknownOption arg => arg ++ ": unknown option"
  | .missingValue arg => arg ++ ": missing option parameter"

/-- Options and other arguments may stand in any order. The first fault decides. -/
def parseArguments (options : List Switch) : List String → Except ArgumentFault Arguments
  | [] => .ok .empty
  | arg :: rest =>
    match options.find? (·.isNamed arg) with
    | some o =>
      if o.takesValue then
        match rest with
        | [] => .error (.missingValue arg)
        | v :: rest => do
          let a ← parseArguments options rest
          .ok { a with given := a.given ++ [(o.short, v)] }
      else do
        let a ← parseArguments options rest
        .ok { a with given := a.given ++ [(o.short, "")] }
    | none =>
      if arg.toList.head? == some '-' && arg != "-" then .error (.unknownOption arg)
      else do
        let a ← parseArguments options rest
        .ok { a with positional := arg :: a.positional }

end Eleven.Tools
