import Eleven.Failure.Problem
import Eleven.Lazy.Resolve

/-! Labels and constants, defined once each and evaluated at most once. -/
namespace Eleven

inductive Progress where
  | pending
  | resolving
  | resolved (d : Datum)
deriving DecidableEq, Repr

structure Symbol where
  name : String
  value : Lazy
  position : Position
  progress : Progress

/-- The name and the integer of a symbol that is resolved to one. -/
def Symbol.integer? (s : Symbol) : Option (String × Int64) :=
  match s.progress with
  | .resolved (.int n) => some (s.name, n)
  | _ => none

/-- Symbols in the order of their definition. -/
structure SymbolTable where
  symbols : List Symbol

namespace SymbolTable

def empty : SymbolTable := ⟨[]⟩

def find? (t : SymbolTable) (name : String) : Option Symbol := t.symbols.find? (·.name == name)

def has (t : SymbolTable) (name : String) : Bool := (t.find? name).isSome

def names (t : SymbolTable) : List String := t.symbols.map (·.name)

def size (t : SymbolTable) : Nat := t.symbols.length

def push (t : SymbolTable) (s : Symbol) : SymbolTable := ⟨t.symbols ++ [s]⟩

/-- A second definition of a name is refused. -/
def define (name : String) (v : Lazy) (pos : Position) (t : SymbolTable) :
    Except Failure SymbolTable :=
  if t.has name then .error ((Problem.redefinition name).failure pos)
  else .ok (t.push ⟨name, v, pos, .pending⟩)

def mark (name : String) (p : Progress) (t : SymbolTable) : SymbolTable :=
  { t with
    symbols := t.symbols.map fun s => if s.name == name then { s with progress := p } else s }

/-- The mark that an evaluation leaves: a failed one is as if it had not begun. -/
def progressAfter : Except Failure Datum → Progress
  | .ok d => .resolved d
  | .error _ => .pending

/-- Evaluates `act` under the mark of a symbol, and keeps its result. -/
def resolving (name : String) (act : Attempt SymbolTable Datum) : Attempt SymbolTable Datum :=
  Attempt.of fun t =>
    let r := act.run (t.mark name .resolving)
    (r.1, r.2.mark name (progressAfter r.1))

/-- Every nested look-up marks one more symbol, so one more level than there are symbols is never
reached. -/
def lookupWithin : Nat → String → Attempt SymbolTable Datum
  | 0, name => throw (.fault (.circularReference name))
  | depth + 1, name => do
    let t ← get
    match t.find? name with
    | none => throw (.fault (.undefinedSymbol name))
    | some s =>
      match s.progress with
      | .resolved d => pure d
      | .resolving => throw (.fault (.circularReference name))
      | .pending => resolving name (s.value.eval (lookupWithin depth))

def lookup (name : String) : Attempt SymbolTable Datum := do
  let t ← get
  lookupWithin (t.size + 1) name

/-- Resolves the symbol to an integer; a failure is reported where the symbol is defined. -/
def resolveSymbol (s : Symbol) : Attempt SymbolTable Int64 :=
  ((Lazy.symbol s.name).resolveInt lookup).mapFailure fun e =>
    (Failure.within ("symbol " ++ s.name) e).annotate s.position

def resolveEach : List Symbol → Attempt SymbolTable Unit
  | [] => pure ()
  | s :: rest => do
    let _ ← resolveSymbol s
    resolveEach rest

/-- Resolves every symbol in the order of definition. -/
def resolveAll : Attempt SymbolTable Unit := do
  let t ← get
  resolveEach t.symbols

/-- The integers of the symbols resolved so far. -/
def values (t : SymbolTable) : List (String × Int64) := t.symbols.filterMap Symbol.integer?

end SymbolTable

end Eleven
