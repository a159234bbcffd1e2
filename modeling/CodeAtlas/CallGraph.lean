import CodeAtlas.Function.Basic

/-!
# Call graphs

The functions found and the names of functions that are called but were not found.
-/

namespace CodeAtlas

structure CallGraph where
  functions : Functions := []
  missing : List String := []
deriving Inhabited, Repr

namespace CallGraph

def addFunction (g : CallGraph) (f : Function) : CallGraph :=
  { g with functions := Dict.set g.functions f.name f }

def addMissing (g : CallGraph) (name : String) : CallGraph :=
  { g with missing := addNew g.missing name }

def getFunction? (g : CallGraph) (name : String) : Option Function := g.functions.get? name

def adjust (g : CallGraph) (name : String) (change : Function → Function) : CallGraph :=
  { g with functions := Dict.adjust g.functions name change }

def unresolved (g : CallGraph) : List String :=
  g.functions.foldl (fun acc (_, f) =>
    f.calls.foldl (fun acc c => if g.functions.has c then acc else addNew acc c) acc) []

end CallGraph

end CodeAtlas
