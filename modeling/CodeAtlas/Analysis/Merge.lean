import CodeAtlas.CallGraph

/-!
# Merging call graphs

Two ways to put a graph into another one, and graphs that share functions. Both ways keep the
entry of a function that is there already and add to its relations; they differ in how much else
they take over.
-/

namespace CodeAtlas

namespace Function

def joinCalls (f other : Function) : Function :=
  { f with calls := addAllNew f.calls other.calls, calledBy := addAllNew f.calledBy other.calledBy }

/-- Takes over the relations of another entry of the same function: calls and callers, the
specializations of a template and the overridden methods of a virtual method. -/
def absorb (f other : Function) : Function :=
  let f := f.joinCalls other
  let f :=
    if other.isTemplate then
      { f with specializations := addAllNew f.specializations other.specializations }
    else f
  if other.isVirtual then { f with overrides := addAllNew f.overrides other.overrides } else f

/-- As `absorb`, and also takes over that it is a template or a virtual method, with the template
parameters and the classes above. -/
def unite (f other : Function) : Function :=
  let f := f.joinCalls other
  let f :=
    if other.isTemplate then
      { f with
        isTemplate := true
        templateParams := addAllNew f.templateParams other.templateParams
        specializations := addAllNew f.specializations other.specializations }
    else f
  if other.isVirtual then
    { f with
      isVirtual := true
      overrides := addAllNew f.overrides other.overrides
      classHierarchy := addAllNew f.classHierarchy other.classHierarchy }
  else f

end Function

namespace CallGraph

def putWith (combine : Function → Function → Function) (g : CallGraph) (entry : String × Function) :
    CallGraph :=
  if g.functions.has entry.1 then g.adjust entry.1 (combine · entry.2) else g.addFunction entry.2

def mergeWith (combine : Function → Function → Function) (target source : CallGraph) : CallGraph :=
  let g := source.functions.foldl (putWith combine) target
  source.missing.foldl addMissing g

def absorb (target source : CallGraph) : CallGraph := mergeWith Function.absorb target source

def merge (target source : CallGraph) : CallGraph := mergeWith Function.unite target source

def overlay (target source : CallGraph) : CallGraph :=
  let g := source.functions.foldl (fun g (_, f) => g.addFunction f) target
  source.missing.foldl addMissing g

end CallGraph

end CodeAtlas
