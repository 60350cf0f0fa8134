import Eleven.Lazy.Resolve

/-! Named values, evaluated anew at every look-up. -/
namespace Eleven

structure Scope where
  bindings : List (String × Lazy)
  /-- The names whose evaluation has begun and not ended. -/
  active : List String

namespace Scope

def empty : Scope := ⟨[], []⟩

/-- A later binding of a name replaces the earlier one. -/
def set (s : Scope) (name : String) (v : Lazy) : Scope :=
  { s with bindings := (name, v) :: s.bindings.filter (·.1 != name) }

def ofInts (values : List (String × Int64)) : Scope :=
  values.foldl (fun s e => s.set e.1 (.int e.2)) empty

def binding? (s : Scope) (name : String) : Option Lazy := s.bindings.lookup name

def enter (name : String) (s : Scope) : Scope := { s with active := name :: s.active }

def leave (name : String) (s : Scope) : Scope := { s with active := s.active.filter (· != name) }

/-- Every nested look-up enters one more bound name, so one more level than there are bindings is
never reached. -/
def lookupWithin : Nat → String → Attempt Scope Datum
  | 0, name => throw (.fault (.circularReference name))
  | depth + 1, name => do
    let s ← get
    match s.binding? name with
    | none => throw (.fault (.undefinedSymbol name))
    | some v =>
      if name ∈ s.active then throw (.fault (.circularReference name))
      else
        modify (enter name)
        Attempt.ensuring (v.eval (lookupWithin depth)) (leave name)

/-- A name that depends on itself is refused. -/
def lookup (name : String) : Attempt Scope Datum := do
  let s ← get
  lookupWithin (s.bindings.length + 1) name

end Scope

end Eleven
