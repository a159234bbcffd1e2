import CodeAtlas.FileTree
import CodeAtlas.Pattern.Parse

/-!
# Wildcards

In a wildcard a star stands for any text, a question mark for any character, and characters in
brackets for one of them, or for none of them after an exclamation mark.
-/

namespace CodeAtlas.Wildcard

/-- Splits off the characters up to a closing bracket, which may not be the first one. -/
def bracket? (cs : List Char) : Option (List Char × List Char) :=
  let (mark, cs) := match cs with
    | '!' :: rest => (['!'], rest)
    | l => ([], l)
  let (first, cs) := match cs with
    | ']' :: rest => ([']'], rest)
    | l => ([], l)
  match cs.dropWhile (· != ']') with
  | [] => none
  | _ :: rest => some (mark ++ first ++ cs.takeWhile (· != ']'), rest)

def setPattern (cs : List Char) : String :=
  let escape := fun (l : List Char) =>
    Text.replace (Text.replace (String.ofList l) "\\" "\\\\") "[" "\\["
  match cs with
  | '!' :: rest => "[^" ++ escape rest ++ "]"
  | '^' :: rest => "[\\^" ++ escape rest ++ "]"
  | l => "[" ++ escape l ++ "]"

def patternText : Nat → List Char → String
  | 0, _ => ""
  | _, [] => ""
  | fuel + 1, '*' :: rest => ".*" ++ patternText fuel rest
  | fuel + 1, '?' :: rest => "." ++ patternText fuel rest
  | fuel + 1, '[' :: rest =>
    match bracket? rest with
    | some (inside, rest) => setPattern inside ++ patternText fuel rest
    | none => "\\[" ++ patternText fuel rest
  | fuel + 1, c :: rest => Pattern.escape (String.ofList [c]) ++ patternText fuel rest

def fits (wildcard name : String) : Bool :=
  let cs := wildcard.toList
  ((Pattern.ofStringWith { dotAll := true } (patternText (cs.length + 1) cs ++ "\\Z")).matchStart?
    name).isSome

end CodeAtlas.Wildcard

namespace CodeAtlas.FileTree

def findBelow (t : FileTree) (dir wildcard : String) : List String :=
  let dir := Path.tidy dir
  let found := (t.walk dir).flatMap fun s =>
    ((s.files ++ s.dirs).filter (Wildcard.fits wildcard)).map fun name =>
      Path.tidy (Path.join s.dir name)
  Text.sorted found

end CodeAtlas.FileTree
