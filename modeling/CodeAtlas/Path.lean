import CodeAtlas.Text.Basic

/-!
# Paths

Paths are texts with slashes between the names. All operations are on the text alone.
-/

namespace CodeAtlas.Path

open Text

def isAbsolute (p : String) : Bool := startsWith p "/"

def join (a b : String) : String :=
  if isAbsolute b then b
  else if a.isEmpty || endsWith a "/" then a ++ b
  else a ++ "/" ++ b

def joinAll (a : String) (names : List String) : String := names.foldl join a

def baseName (p : String) : String := (split p "/").getLastD ""

/-- What stands before the last slash; slashes at its end are dropped unless it has nothing else. -/
def dirName (p : String) : String :=
  let head := take p (size p - size (baseName p))
  if head.toList.all (· == '/') then head else stripEndChars head "/"

def pushName (absolute : Bool) (acc : List String) (name : String) : List String :=
  if name.isEmpty || name == "." then acc
  else if name == ".." then
    match acc with
    | [] => if absolute then [] else [".."]
    | top :: rest => if top == ".." then ".." :: acc else rest
  else name :: acc

/-- The slashes that a path starts with: none, one, or two if there are exactly two. -/
def start (p : String) : String :=
  match (p.toList.takeWhile (· == '/')).length with
  | 0 => ""
  | 2 => "//"
  | _ => "/"

/-- The path without empty names, single dots and, as far as possible, double dots. -/
def normalize (p : String) : String :=
  if p.isEmpty then "."
  else
    let names := ((split p "/").foldl (pushName (isAbsolute p)) []).reverse
    let whole := start p ++ Text.join "/" names
    if whole.isEmpty then "." else whole

def absolute (cwd p : String) : String := normalize (join cwd p)

def names (p : String) : List String := (split p "/").filter (!·.isEmpty)

def commonLength : List String → List String → Nat
  | a :: as, b :: bs => if a == b then commonLength as bs + 1 else 0
  | _, _ => 0

/-- The path as seen from another directory, both given from the working directory. -/
def relative (cwd p start : String) : String :=
  let target := names (absolute cwd p)
  let source := names (absolute cwd start)
  let n := commonLength source target
  let up := List.replicate (source.length - n) ".."
  match up ++ target.drop n with
  | [] => "."
  | l => Text.join "/" l

/-- The path before its extension, and the extension: the last dot and what follows it, unless
only dots stand before it. -/
def splitExtension (p : String) : String × String :=
  let base := baseName p
  let dots := (base.toList.takeWhile (· == '.')).length
  match findLast? "." base with
  | some i =>
    if i < dots then (p, "")
    else
      let cut := size p - size base + i
      (take p cut, drop p cut)
  | none => (p, "")

def extension (p : String) : String := (splitExtension p).2

/-- The path with single slashes between its names and without single dots. -/
def tidy (p : String) : String :=
  let whole := start p ++ Text.join "/" ((names p).filter (· != "."))
  if whole.isEmpty then "." else whole

def parent (p : String) : String :=
  let d := dirName (tidy p)
  if d.isEmpty then "." else d

end CodeAtlas.Path
