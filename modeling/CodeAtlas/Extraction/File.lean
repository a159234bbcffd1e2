import CodeAtlas.Extraction.Classes
import CodeAtlas.Extraction.Templates

/-!
# Functions of a file

All functions that the tree of a file shows.
-/

namespace CodeAtlas.Extraction

structure Options where
  templates : Bool := true
  virtualMethods : Bool := true
deriving Repr, DecidableEq

def extract (options : Options) (file : String) (a : Ast) : Except Fault Functions := do
  let fs ← visit file a []
  let fs := if options.templates then templateInfo file a fs else fs
  let fs ← if options.virtualMethods then classHierarchy file a fs else pure fs
  if options.templates then advancedTemplates file a fs else return fs

end CodeAtlas.Extraction
