import CodeAtlas.Ast.Document
import CodeAtlas.PlainGraph.Document
import CodeAtlas.Session

/-!
# Sessions as documents

A document describes the session that a program starts in: the files, the answers of the services
and the machine. The requests made during a session can be written down as documents too.
-/

namespace CodeAtlas

def hexByte (a b : Char) : UInt8 :=
  let value := fun (c : Char) =>
    let n := c.toNat
    if 48 ≤ n && n ≤ 57 then n - 48 else if 97 ≤ n && n ≤ 102 then n - 87
    else if 65 ≤ n && n ≤ 70 then n - 55 else 0
  (value a * 16 + value b).toUInt8

def hexBytes : List Char → List UInt8
  | a :: b :: rest => hexByte a b :: hexBytes rest
  | _ => []

def bytesHex (l : List UInt8) : String :=
  String.ofList (l.flatMap fun b => Text.hexDigits 2 b.toNat)

def FileTree.ofJson (root : String) (j : Json) : FileTree :=
  j.fields.foldl (fun t (path, content) =>
    match content with
    | .str s => t.addFile path (Text.encodeUtf8 s)
    | j =>
      match j.get? "hex" with
      | some (.str h) => t.addFile path (hexBytes h.toList)
      | _ => t.addDir path) (FileTree.empty root)

def QueryOutcome.ofJson : Json → QueryOutcome
  | .arr l => .rows (l.map Json.fields)
  | .obj fields => .fail ((Json.obj fields).textAt "fail" "")
  | _ => .nothing

def Database.ofJson (j : Json) : Database :=
  { outcomes := (j.itemsAt "results").map QueryOutcome.ofJson
    answers := j.fields
    refusal := (j.get? "refuse").bind Json.str?
    connected := j.boolAt "connected" true
    absent := j.textsAt "absent" }

def ParseOutcome.ofJson (j : Json) : ParseOutcome :=
  match j.get? "fail" with
  | some t => .fail t.text
  | none => .tree (Ast.ofJson j)

def GraphOutcome.ofJson (plain : Bool) (j : Json) : Except Fault GraphOutcome :=
  match j.get? "fail" with
  | some t => .ok (.fail t.text)
  | none =>
    if plain then .ok (.graph (.plain (.ofJson j)))
    else do return .graph (.full (← CallGraph.ofJson j))

def Drawing.ofName : String → Drawing
  | "fail" => .fails
  | "fail_quiet" => .failsQuietly
  | "ok" => .draws
  | "nofile" => .drawsNothing
  | _ => .missing

def Machine.ofJson (j : Json) : Machine :=
  { platform := j.textAt "platform" "Linux"
    known := j.textsAt "exists"
    globs := (j.field "glob").fields.map fun (k, v) => (k, v.texts)
    libraries := (j.field "ldconfig").str?
    badCommands := j.textsAt "bad_commands"
    release := (j.field "os_release").str?
    linkRefusal := (j.field "symlink_fail").str?
    badLibraries := (j.field "bad_libs").fields.map fun (k, v) => (k, v.text)
    starts := (j.textsAt "create").map fun s => if s == "ok" then none else some s
    version := match j.get? "version" with
      | some v => v.str?
      | none => some "clang version 13"
    tellsVersion := match j.get? "version" with
      | some (.bool b) => b
      | _ => true
    hasConfiguration := !j.boolAt "no_config" false
    drawing := .ofName (j.textAt "graphviz" "missing")
    environment := (j.field "env").fields.map fun (k, v) => (k, v.text)
    times := (j.field "mtimes").fields
    compilerSearch := (j.field "which").int?
    compilerOutput := (j.field "output").str? }

def ModelReply.ofJson (j : Json) : ModelReply :=
  match j.get? "status_error" with
  | some t => .refused t.text
  | none => .reply (j.getD "json" (.obj []))

def Session.ofJson (root : String) (j : Json) : Except Fault Session := do
  let plain := j.boolAt "bare" false && j.boolAt "mini" true
  let graphs ← match j.get? "graphs" with
    | some g => do
      let l ← g.fields.mapM fun (k, v) => do return (k, ← GraphOutcome.ofJson plain v)
      pure (some l)
    | none => pure none
  return {
    tree := .ofJson root (j.field "files")
    machine := .ofJson j
    database := .ofJson (j.field "db")
    segments := (j.get? "segments").map Json.texts
    model := (j.get? "http").map ModelReply.ofJson
    trees := (j.field "asts").fields.map fun (k, v) => (k, .ofJson v)
    graphs := graphs
    project := ← CallGraph.ofJson (j.getD "graph" (.obj []))
    hits := (j.itemsAt "hits").map fun h => ((h.item 0).number, (h.item 1).whole)
    graphLibrary := j.boolAt "py2neo" false
    input := j.textsAt "stdin" }

def Argument.toJson : Argument → Json
  | .data j => j
  | .graph g => g.toJson

def Request.toJson : Request → Json
  | .query text params => .obj [("query", .str text), ("params", .obj params)]
  | .call name args => .obj [("call", .str name), ("args", .arr (args.map Argument.toJson))]
  | .node label props => .obj [("node", .str label), ("props", .obj props)]
  | .relation kind a b => .obj [("rel", .str kind), ("from", a), ("to", b)]
  | .merge label key props => .obj [("merge", .str label), ("key", .str key), ("props", .obj props)]
  | .lookFor label props => .obj [("match", .str label), ("props", .obj props)]

namespace Session

def requestsJson (w : Session) : Json := .arr (w.requests.reverse.map Request.toJson)

def messagesJson (w : Session) : Json :=
  .arr (w.messages.reverse.map fun (level, message) => .arr [.str level, .str message])

def picturesJson (w : Session) : Json :=
  .arr (w.pictures.reverse.map fun p => .arr [.str p.kind, .str p.text, .str p.target])

def output (w : Session) : String := String.join w.written.reverse

def readJson (w : Session) (paths : List String) : Json :=
  .obj (paths.map fun p =>
    (p, match w.tree.readText p with
      | .ok s => .str s
      | .error _ => .null))

end Session

end CodeAtlas
