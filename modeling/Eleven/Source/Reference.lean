import Eleven.Files.Path
import Eleven.Source.Reader

/-! The files that a source names. -/
namespace Eleven.Source

inductive Reference where
  /-- A file that is read as source in turn. -/
  | source (path : String)
  /-- A file whose bytes are taken as they are. -/
  | data (path : String)
deriving DecidableEq, Repr

def Reference.path : Reference → String
  | .source p => p
  | .data p => p

def operationReferences (pos : Position) : Operation → List Reference
  | .includeFile name => [.source (Path.resolve pos.file name)]
  | .insertFile name => [.data (Path.resolve pos.file name)]
  | _ => []

mutual

def commandReferences : Command → List Reference
  | .single h o => operationReferences h.position o
  | .repetition _ _ body => bodyReferences body

def bodyReferences : List Command → List Reference
  | [] => []
  | c :: cs => commandReferences c ++ bodyReferences cs

end

/-- The files that the well-formed commands of a source name. -/
def references (file text : String) : List Reference :=
  (Reader.commands file text).flatMap fun
    | .ok c => commandReferences c
    | .error _ => []

end Eleven.Source
