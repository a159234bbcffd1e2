import CodeAtlas.Json.Access
import CodeAtlas.Session

/-!
# Showing and exporting functions

Functions and call chains on the screen, and functions in a file as text, as a document with
headings or as data. What is not known is said to be unknown.
-/

namespace CodeAtlas.Finder

open Run Text

def unknown : Json := .str "未知"

def shownField (row : Row) (key : String) (default : Json) : String :=
  ((Dict.get? row key).getD default).shown

def display (row : Row) (withRelevance : Bool) : Run Unit := do
  say ("\n" ++ times "=" 80)
  say ("函数: " ++ shownField row "name" unknown)
  say (times "=" 80)
  say ("文件: " ++ shownField row "file_path" unknown)
  say ("行号: " ++ shownField row "line_number" unknown)
  if withRelevance then
    if let some r := Dict.get? row "relevance" then say ("相关度: " ++ r.shown)
  if let some c := Dict.get? row "calls" then say ("调用次数: " ++ c.shown)
  say "\n源代码:"
  say (times "-" 80)
  say (shownField row "body" (.str "无法获取函数体"))
  say (times "-" 80)

/-- The lines that show the functions on one side of a chain, each followed by what `below` shows
of it. -/
def sideLines (indent title : String) (rows : List Json) (below : Json → List String) :
    List String :=
  if rows.isEmpty then []
  else
    (indent ++ title ++ " (" ++ toString rows.length ++ "):") ::
      rows.flatMap fun r =>
        (indent ++ "  - " ++ shownField r.fields "name" unknown ++ " (在 " ++
          shownField r.fields "file_path" unknown ++ ":" ++
            shownField r.fields "line_number" unknown ++
          ")") :: below r

/-- The lines that show a call chain; `fuel` bounds the depth. -/
def chainLines : Nat → Json → String → Nat → List String
  | 0, _, _, _ => []
  | fuel + 1, chain, name, indent =>
    let blanks := times "  " indent
    let below := fun (side : String) (r : Json) =>
      match r.get? side with
      | some l =>
        chainLines fuel (.obj [(side, l)]) (shownField r.fields "name" unknown) (indent + 2)
      | none => []
    (blanks ++ "函数: " ++ name) ::
      (sideLines blanks "被调用者" (chain.itemsAt "callers") (below "callers") ++
        sideLines blanks "调用者" (chain.itemsAt "callees") (below "callees"))

def displayChain (chain : Json) (name : String) (indent : Nat) : Run Unit :=
  (chainLines (chain.depth + 1) chain name indent).forM say

/-- A text made of pieces, of which one may fail. -/
abbrev Pieces := List (Except Fault String)

def Pieces.text : Pieces → String
  | .ok s :: rest => s ++ Pieces.text rest
  | _ => ""

def Pieces.fault? : Pieces → Option Fault
  | .ok _ :: rest => Pieces.fault? rest
  | .error e :: _ => some e
  | [] => none

def textPiece : Json → Except Fault String
  | .str s => .ok s
  | j => .error (.wrongShape ("write() argument must be str, not " ++
      (match j with
        | .null => "None"
        | j => j.kindName)))

def inOrder (a b : Json) : Bool :=
  match a, b with
  | .str a, .str b => !decide (b < a)
  | .int a, .int b => a ≤ b
  | a, b => a.number ≤ b.number

def isNumber : Json → Bool
  | .int _ | .float _ | .bool _ => true
  | _ => false

/-- Rows in the order of a field, equal ones in their order. Fields of different kinds cannot be
put in order. -/
def sortRows (key : String) (default : Json) (rows : List Row) : Except Fault (List Row) :=
  let value := fun (r : Row) => (Dict.get? r key).getD default
  let values := rows.map value
  if rows.length < 2 || values.all isNumber || values.all (·.str?.isSome) then
    .ok (rows.mergeSort fun a b => inOrder (value a) (value b))
  else .error (.wrongShape "'<' not supported between instances")

def groupRows (key : String) (default : Json) (rows : List Row) : List (Json × List Row) :=
  rows.foldl (fun groups row =>
    let value := (Dict.get? row key).getD default
    if groups.any (·.1 == value) then
      groups.map fun (v, l) => if v == value then (v, l ++ [row]) else (v, l)
    else groups ++ [(value, [row])]) []

def sectionPieces (row : Row) : Pieces :=
  [.ok ("### 函数: " ++ shownField row "name" unknown ++ " (行号: " ++
      shownField row "line_number" unknown ++ ")\n\n"),
   .ok "```\n", textPiece ((Dict.get? row "body").getD (.str "")), .ok "\n```\n\n"]

def headedPieces (functions : Dict Row) : Pieces :=
  .ok "# 函数调用链分析\n\n" ::
    (groupRows "file_path" unknown functions.values).flatMap fun (file, rows) =>
      .ok ("## 文件: " ++ file.shown ++ "\n\n") ::
        (match sortRows "line_number" (.int 0) rows with
          | .ok rows => rows.flatMap sectionPieces
          | .error e => [.error e])

def plainPieces (functions : Dict Row) : Pieces :=
  .ok "函数调用链分析\n\n" ::
    functions.values.flatMap fun row =>
      [.ok ("函数: " ++ shownField row "name" unknown ++
        "\n文件: " ++ shownField row "file_path" unknown ++
        "\n行号: " ++ shownField row "line_number" unknown ++ "\n\n源代码:\n" ++ times "-" 80 ++ "\n"),
       textPiece ((Dict.get? row "body").getD (.str "")),
       .ok ("\n" ++ times "-" 80 ++ "\n\n")]

def dataPieces (functions : Dict Row) : Pieces :=
  let part := fun (row : Row) key default => (key, (Dict.get? row key).getD default)
  [.ok (Json.render ⟨false, some 2⟩ (.obj (functions.map fun (name, row) =>
    (name, .obj [part row "name" unknown, part row "file_path" unknown,
      part row "line_number" unknown,
      part row "body" (.str ""), part row "relevance" (.int 0), part row "calls" (.int 0)]))))]

def exportFunctions (functions : Dict Row) (path format : String) : Run Unit := do
  let pieces :=
    if format == "json" then dataPieces functions
    else if format == "md" then headedPieces functions
    else plainPieces functions
  writeFile path pieces.text
  match pieces.fault? with
  | some e => throw e
  | none => return

end CodeAtlas.Finder
