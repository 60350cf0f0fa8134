import Eleven.Failure.Category

/-! Why a file cannot be read or written. -/
namespace Eleven

inductive FileFault where
  /-- A collection of files has no file of this name. -/
  | unknownName (path : String)
  /-- The name stands for a directory of a collection. -/
  | notAFile (path : String)
  | noSuchFile (path : String)
  | openDirectory (path : String)
  | readDirectory (path : String)
  | notADirectory (path : String)
  /-- Anything else the operating system reports. -/
  | other (message : String)
deriving DecidableEq, Repr

namespace FileFault

def category : FileFault → Option Category
  | .unknownName _ => some .missingFile
  | .noSuchFile _ => some .missingFile
  | _ => none

def message : FileFault → String
  | .unknownName path => "open " ++ path ++ ": file does not exist"
  | .notAFile path => "read " ++ path ++ ": invalid argument"
  | .noSuchFile path => "open " ++ path ++ ": no such file or directory"
  | .openDirectory path => "open " ++ path ++ ": is a directory"
  | .readDirectory path => "read " ++ path ++ ": is a directory"
  | .notADirectory path => "open " ++ path ++ ": not a directory"
  | .other message => message

end FileFault

end Eleven
