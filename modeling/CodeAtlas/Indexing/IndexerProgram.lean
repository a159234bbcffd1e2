import CodeAtlas.Indexing.Indexer

/-!
# The indexer on the command line

The commands clear a project, index a file or a directory, index what has changed, or index the
core of the library.
-/

namespace CodeAtlas.Indexing

open Run CommandLine

def indexerGrammar : CommandLine.Grammar :=
  simple
    [{ positional "command" with
        choices := ["index", "index-incremental", "index-folly", "clear"] },
     option "source" ["--source", "-s"] .null,
     option "project" ["--project", "-p"] (.str "folly"),
     flag "clear" ["--clear"],
     option "neo4j_uri" ["--neo4j-uri"] (.str "bolt://localhost:7688"),
     option "neo4j_user" ["--neo4j-user"] (.str "neo4j"),
     option "neo4j_password" ["--neo4j-password"] (.str "password"),
     flag "parallel" ["--parallel"],
     number "max_workers" ["--workers"] (.int 4),
     several "file_extensions" ["--extensions"],
     several "include_dirs" ["--include-dirs"],
     several "compiler_args" ["--compiler-args"],
     flag "analyze_templates" ["--analyze-templates"],
     flag "track_virtual" ["--track-virtual"],
     { key := "cross_file_mode", names := ["--cross-file-mode"]
       choices := ["basic", "enhanced", "full"], default := .str "basic" },
     flag "verbose" ["--verbose", "-v"]]

abbrev Early := Option Bool

def indexSource (x : Indexer) (args : Dict Json) (source : String) : Run Bool := do
  info ("Indexing source: " ++ source)
  let t ← tree
  let o := IndexOptions.ofValues args
  let store := fun (g : AnyGraph) =>
    x.store g (args.get? "project" |>.getD .null) (isOn args "clear")
  if t.isFile source then
    match ← x.processFile source o with
    | some g => store g
    | none =>
      err "Failed to process file"
      return false
  else if t.isDir source then store (← x.processDirectory source o)
  else
    err ("Source does not exist: " ++ source)
    return false

/-- Runs a command on a source, which must be given and, for some commands, be a directory. The
answer says whether it succeeded; none if it could not begin. -/
def onSource (args : Dict Json) (what : String) (needsDir : Bool) (body : String → Run Bool) :
    Run Early := do
  let source := textOf args "source"
  if source.isEmpty then
    err ("Source parameter is required for " ++ what)
    return none
  else if needsDir && !(← tree).isDir source then
    err ("Source must be a directory for " ++ what ++ ": " ++ source)
    return none
  else some <$> body source

def indexerCommand (x : Indexer) (args : Dict Json) (command : String) : Run Early := do
  let project := (args.get? "project").getD .null
  match command with
  | "clear" =>
    info ("Clearing data for project: " ++ project.shown)
    some <$> x.clear project
  | "index" => onSource args "indexing" false (indexSource x args)
  | "index-incremental" =>
    onSource args "incremental indexing" true fun source => do
      info ("Incremental indexing of source: " ++ source)
      x.indexChanged source project (.ofValues args)
  | _ =>
    onSource args "Folly indexing" true fun source => do
      info ("Indexing Folly codebase at: " ++ source)
      x.indexCore source project (isOn args "clear")
        { IndexOptions.ofValues args with templates := true, virtuals := true }

def indexerMain (i : Installation) (words : List String) : Run Int := do
  let args ← commandLine indexerGrammar words
  let command := textOf args "command"
  if !i.hasLibrary then
    err "Neo4j library (py2neo) not available. Please install it."
  if !i.hasLibrary && command != "clear" then return 1
  else if !i.hasFrontEnd && command != "clear" then
    err "Clang library not available. Please install it."
    return 1
  else
    let x ← Indexer.start i (.str (textOf args "neo4j_uri")) (.str (textOf args "project"))
    match ← indexerCommand x args command with
    | none => return 1
    | some done =>
      info ("Command '" ++ command ++ "' completed in 0.00 seconds")
      return if done then 0 else 1

end CodeAtlas.Indexing
