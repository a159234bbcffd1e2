import CodeAtlas.Search.Report

/-!
# The question program

Answers a question in natural language from the database. Questions about features of templates are
looked up by feature first.
-/

namespace CodeAtlas.Search

open Run CommandLine

def questionGrammar : CommandLine.Grammar :=
  simple
    [positional "query",
     option "project" ["--project", "-p"] (.str "default"),
     number "limit" ["--limit", "-l"] (.int 10),
     { key := "lang", names := ["--lang"], choices := ["auto", "en", "zh"],
       default := .str "auto" },
     flag "verbose" ["--verbose", "-v"],
     flag "metaprogramming" ["--metaprogramming", "-m"]]

def mergeFound (known : List Json) (limit : Int) : List Row → List Row → Run (List Row)
  | found, [] => return found
  | found, f :: rest => do
    if known.contains (← Row.column f "name") then mergeFound known limit found rest
    else
      let found := found ++ [f]
      if limit ≤ found.length then return found else mergeFound known limit found rest

/-- The functions with features; if there are few, those that fit the words are added. -/
def searchFeatures (question project : String) (limit : Int) (language : String)
    (features : Dict Json) : Run (List Row) := do
  let found ← findByFeatures project features
  if found.length < 3 then
    let more ← searchByDescription question project limit language
    let known ← found.mapM (Row.column · "name")
    mergeFound known limit found more
  else return found

def answerQuestion (args : Dict Json) (language : String) : Run Unit := do
  let question := textOf args "query"
  let project := textOf args "project"
  let limit := numberOf args "limit"
  let verbose := isOn args "verbose"
  let features := detectFeatures question
  let words ← questionWords question language
  if verbose then
    say ("Processed query tokens: " ++ Text.join ", " words)
    if !features.isEmpty then
      say ("Detected metaprogramming features: " ++ (Json.obj features).literal)
  let found ←
    if isOn args "metaprogramming" || !features.isEmpty then
      searchFeatures question project limit language features
    else searchByDescription question project limit language
  sayFound question found fun f => do
    sayFeatures f
    if verbose then sayDetails false f

def questionMain (words : List String) : Run Unit := do
  let args ← commandLine questionGrammar words
  let language ← chosenLanguage (textOf args "lang") (textOf args "query")
  connect
  orElse (answerQuestion args language) fun e => say ("Error executing query: " ++ e.message)

end CodeAtlas.Search
