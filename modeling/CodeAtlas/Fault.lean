import CodeAtlas.Json.Printer

/-!
# Faults

The causes for which an operation gives up. Each cause carries what its message needs.
-/

namespace CodeAtlas

inductive Fault where
  | missingKey (key : String)
  | missingNumber (n : Int)
  | wrongShape (message : String)
  | missingPart (message : String)
  | badValue (message : String)
  | outOfRange (message : String)
  | unknownName (message : String)
  | absent (message : String)
  | notDirectory (message : String)
  | noFile (path : String)
  | isDirectory (path : String)
  | isFile (path : String)
  | fileExists (path : String)
  | system (message : String)
  | notText (message : String)
  | service (message : String)
  | notInstalled (message : String)
  | endOfInput
  | commandFailed (message : String) (errorOutput : Option String)
  | pattern (message : String)
  | grammar (message : String)
  | indentation (message : String)
  | exit (status : Int)
deriving Repr

namespace Fault

def lacks (j : Json) (part : String) : Fault :=
  .missingPart ("'" ++ j.kindName ++ "' object has no attribute '" ++ part ++ "'")

def notIterable (j : Json) : Fault :=
  .wrongShape ("'" ++ j.kindName ++ "' object is not iterable")

def quoted (s : String) : String := Text.literal s

def message : Fault → String
  | .missingKey key => quoted key
  | .missingNumber n => toString n
  | .noFile path => "[Errno 2] No such file or directory: " ++ quoted path
  | .isDirectory path => "[Errno 21] Is a directory: " ++ quoted path
  | .isFile path => "[Errno 20] Not a directory: " ++ quoted path
  | .fileExists path => "[Errno 17] File exists: " ++ quoted path
  | .wrongShape m | .missingPart m | .badValue m | .outOfRange m | .unknownName m | .absent m
  | .notDirectory m | .system m | .notText m | .service m | .notInstalled m | .pattern m
  | .grammar m | .indentation m => m
  | .commandFailed m _ => m
  | .endOfInput => "EOF when reading a line"
  | .exit status => toString status

end Fault

namespace Json

/-- Data that can be told apart quickly: everything but lists and objects. -/
def checkKey : Json → Except Fault Unit
  | .arr _ => .error (.wrongShape "unhashable type: 'list'")
  | .obj _ => .error (.wrongShape "unhashable type: 'dict'")
  | _ => .ok ()

def entry (key : String) : Json → Except Fault Json
  | .obj fields =>
    match fields.lookup key with
    | some v => .ok v
    | none => .error (.missingKey key)
  | .arr _ => .error (.wrongShape "list indices must be integers or slices, not str")
  | .str _ => .error (.wrongShape "string indices must be integers, not 'str'")
  | j => .error (.wrongShape ("'" ++ j.kindName ++ "' object is not subscriptable"))

def entryAt (n : Nat) : Json → Except Fault Json
  | .arr items =>
    match items[n]? with
    | some v => .ok v
    | none => .error (.outOfRange "list index out of range")
  | .str s =>
    match s.toList[n]? with
    | some c => .ok (.str (String.ofList [c]))
    | none => .error (.outOfRange "string index out of range")
  | .obj _ => .error (.missingNumber n)
  | j => .error (.wrongShape ("'" ++ j.kindName ++ "' object is not subscriptable"))

/-- The value of a field or a default; only objects can be asked. -/
def fieldOr (j : Json) (key : String) (default : Json) : Except Fault Json :=
  match j with
  | .obj fields => .ok ((fields.lookup key).getD default)
  | j => .error (.lacks j "get")

def fixedText (places : Nat) : Json → Except Fault String
  | .int n => .ok (Decimal.renderFixed (Float.ofInt n) places)
  | .float x => .ok (Decimal.renderFixed x places)
  | .bool b => .ok (Decimal.renderFixed (if b then 1.0 else 0.0) places)
  | .str _ => .error (.badValue "Unknown format code 'f' for object of type 'str'")
  | j =>
    .error (.wrongShape ("unsupported format string passed to " ++ j.kindName ++ ".__format__"))

def size : Json → Except Fault Nat
  | .str s => .ok (Text.size s)
  | .arr items => .ok items.length
  | .obj fields => .ok fields.length
  | j => .error (.wrongShape ("object of type '" ++ j.kindName ++ "' has no len()"))

/-- The text, which is a fault to ask of other data. `part` is what the text is needed for. -/
def textFor (part : String) : Json → Except Fault String
  | .str s => .ok s
  | j => .error (.lacks j part)

def record : Json → Except Fault (List (String × Json))
  | .obj fields => .ok fields
  | .arr [] | .str "" => .ok []
  | .arr _ | .str _ =>
    .error (.badValue "dictionary update sequence element #0 has length 1; 2 is required")
  | j => .error (.notIterable j)

def walk : Json → Except Fault (List Json)
  | .arr items => .ok items
  | .str s => .ok (s.toList.map fun c => .str (String.ofList [c]))
  | .obj fields => .ok (fields.map fun (k, _) => .str k)
  | j => .error (.notIterable j)

def joinTexts (separator : String) (j : Json) : Except Fault String := do
  match j with
  | .arr items =>
    let texts ← (items.zip (List.range items.length)).mapM fun (item, n) =>
      match item with
      | .str s => Except.ok s
      | j => .error (.wrongShape s!"sequence item {n}: expected str instance, {j.kindName} found")
    return Text.join separator texts
  | .str s => return Text.join separator (s.toList.map fun c => String.ofList [c])
  | .obj fields => return Text.join separator (fields.map (·.1))
  | _ => throw (.wrongShape "can only join an iterable")

end Json

end CodeAtlas
