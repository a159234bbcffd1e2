import CodeAtlas.CodeIndex.Tools
import CodeAtlas.Embedding.BlockIndex
import CodeAtlas.Embedding.Catalogue

/-!
# Commands on indexes

Work on an index as a list of commands. A command is a list: a word, then its arguments.
-/

namespace CodeAtlas

open Run

/-- The fault of a command: its arguments do not fit, or it is not known. -/
def commandFault (known : List String) (word : String) : Fault :=
  if known.contains word then .wrongShape ("arguments of " ++ word) else .missingPart word

def CodeIndex.perform (x : CodeIndex) (j : Json) : Run Json :=
  match j.items with
  | [.str "chain", f] => lift do
    f.checkKey
    callChain x.functions x.links f.text
  | [.str "search", q] => .arr <$> x.search q (.int 5)
  | [.str "search", q, k] => .arr <$> x.search q k
  | _ => throw (commandFault ["chain", "search"] (j.wordAt 0))

namespace Embedding

def hitsJson (hits : List (Json × Float)) : Json :=
  .arr (hits.map fun (block, distance) => .arr [block, .float distance])

def BlockIndex.perform (x : BlockIndex) (j : Json) : Run (Json × BlockIndex) :=
  match j.items with
  | [.str "build"] => do return (.null, ← x.build)
  | [.str "search", q] => do return (hitsJson (← x.search q (.int 5)), x)
  | [.str "search", q, k] => do return (hitsJson (← x.search q k), x)
  | _ => throw (commandFault ["build", "search"] (j.wordAt 0))

def Catalogue.perform (c : Catalogue) (word : String) (args : List Json) :
    Run (Except Fault Json × Catalogue) := do
  let args := args.headD (.obj [])
  let project := args.getD "project" (.str "default")
  match word with
  | "build" =>
    let (outcome, c) ← c.build project
    return (outcome.map fun _ => .null, c)
  | "buildCompiled" =>
    let endings := match args.field "endings" with
      | .null => Catalogue.compiledEndings
      | e => e.texts
    let outcome ← attempt (c.buildCompiled project (args.field "store" != .null) endings)
    return (outcome.map fun _ => .null, c)
  | _ => return (.error (commandFault [] word), c)

def NodeStore.perform (j : Json) : Run Json :=
  match j.items with
  | [.str "node", l, p] => addNode l p
  | [.str "relation", a, b, k] => addRelation a b k .null
  | [.str "relation", a, b, k, p] => addRelation a b k p
  | [.str "ask", q] => NodeStore.ask q .null
  | [.str "ask", q, p] => NodeStore.ask q p
  | _ => throw (commandFault ["node", "relation", "ask"] (j.wordAt 0))

end Embedding

end CodeAtlas
