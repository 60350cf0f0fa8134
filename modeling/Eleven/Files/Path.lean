import Eleven.Text.Split

/-! Slash-separated paths, by their spelling alone. -/
namespace Eleven.Path

open Eleven.Text (split dropTrailing)

def isAbsolute (path : String) : Bool := path.toList.head? == some '/'

/-- One component more on a list kept innermost first. A `..` takes the last name away; where
there is none it is kept, unless the path starts at the root. -/
def pushComponent (rooted : Bool) (done : List (List Char)) (part : List Char) : List (List Char) :=
  if part = [] || part = ['.'] then done
  else if part = ['.', '.'] then
    match done with
    | [] => if rooted then [] else [part]
    | last :: before => if last = ['.', '.'] then part :: done else before
  else part :: done

def joinComponents : List (List Char) → List Char
  | [] => []
  | [part] => part
  | part :: rest => part ++ '/' :: joinComponents rest

/-- The shortest spelling of a path: no empty component, no `.`, and `..` only at the front. -/
def clean (path : String) : String :=
  let rooted := isAbsolute path
  let parts := ((split '/' path.toList).foldl (pushComponent rooted) []).reverse
  if rooted then String.ofList ('/' :: joinComponents parts)
  else if parts = [] then "." else String.ofList (joinComponents parts)

/-- Two paths one after the other; an empty one leaves no trace. -/
def join (dir name : String) : String :=
  if dir = "" then (if name = "" then "" else clean name) else clean (dir ++ "/" ++ name)

/-- All up to the last slash, cleaned. -/
def directory (path : String) : String :=
  clean (String.ofList (dropTrailing (· != '/') path.toList))

/-- The last component, trailing slashes apart. -/
def base (path : String) : String :=
  if path = "" then "."
  else match dropTrailing (· == '/') path.toList with
    | [] => "/"
    | cs => String.ofList (cs.reverse.takeWhile (· != '/')).reverse

/-- What follows the last dot of the last component, with that dot. -/
def extension (path : String) : String :=
  let last := path.toList.reverse.takeWhile (· != '/')
  if '.' ∈ last then String.ofList ('.' :: (last.takeWhile (· != '.')).reverse) else ""

/-- The last component without the extension. -/
def stem (path : String) : String :=
  let name := (base path).toList
  let ext := (extension path).toList
  if ext.isSuffixOf name then String.ofList (name.take (name.length - ext.length)) else base path

/-- A name as a source file means it: relative names start at the directory of that file. -/
def resolve (source name : String) : String :=
  if isAbsolute name then clean name else join (directory source) name

end Eleven.Path
