import CodeAtlas.Dict
import CodeAtlas.Json.Basic
import CodeAtlas.Text.Numeral

/-!
# Command lines

A command line is described by its options and its positional parameters. Long options may be
shortened as long as they stay unique and may carry their value behind an equals sign; short
options may be run together and carry their value right behind. Behind `--` everything is
positional. A command line that does not fit ends the program with status 2.
-/

namespace CodeAtlas.CommandLine

open Text

inductive Arity where
  | flag
  | help
  | one
  | optional
  | many
deriving Repr, DecidableEq

/-- A parameter: an option if it has names that start with a dash, and positional otherwise. -/
structure Parameter where
  key : String
  names : List String := []
  arity : Arity := .one
  isNumber : Bool := false
  choices : List String := []
  default : Json := .null
  required : Bool := false
deriving Inhabited

/-- The description of a command line: its parameters and, under a key, its commands. -/
inductive Grammar where
  | mk (parameters : List Parameter) (commandKey : String) (commands : List (String × Grammar))

namespace Grammar

def parameters : Grammar → List Parameter
  | .mk ps _ _ => { key := "help", names := ["-h", "--help"], arity := .help } :: ps

def commandKey : Grammar → String
  | .mk _ k _ => k

def commands : Grammar → List (String × Grammar)
  | .mk _ _ cs => cs

end Grammar

def simple (parameters : List Parameter) : Grammar := .mk parameters "" []

def flag (key : String) (names : List String) : Parameter :=
  { key, names, arity := .flag, default := .bool false }

def option (key : String) (names : List String) (default : Json) : Parameter :=
  { key, names, default }

def number (key : String) (names : List String) (default : Json) : Parameter :=
  { key, names, default, isNumber := true }

def needed (key : String) (names : List String) : Parameter := { key, names, required := true }

def several (key : String) (names : List String) : Parameter := { key, names, arity := .many }

def positional (key : String) : Parameter := { key, required := true }

abbrev Outcome := Except Int

def misuse {α : Type} : Outcome α := .error 2

inductive Word where
  | value
  | mark
  | option (p : Parameter) (name : String) (value : Option String)
  | unknown

def Word.isValue : Word → Bool
  | .value => true
  | _ => false

def Word.isOption : Word → Bool
  | .option .. | .unknown => true
  | _ => false

def named? (ps : List Parameter) (name : String) : Option Parameter :=
  ps.find? (·.names.contains name)

def candidates (ps : List Parameter) (word : String) : List Word :=
  if startsWith word "--" then
    let (start, value) := match find? "=" word with
      | some i => (take word i, some (drop word (i + 1)))
      | none => (word, none)
    ps.flatMap fun p => (p.names.filter (startsWith · start)).map fun n => Word.option p n value
  else
    ps.flatMap fun p => p.names.filterMap fun n =>
      if n == take word 2 then some (Word.option p n (some (drop word 2)))
      else if startsWith n word then some (Word.option p n none)
      else none

def isNegativeNumber (word : String) : Bool :=
  match word.toList with
  | '-' :: cs =>
    let whole := cs.takeWhile isDecimal
    match cs.drop whole.length with
    | [] => !whole.isEmpty
    | '.' :: ds => !ds.isEmpty && ds.all isDecimal
    | _ => false
  | _ => false

def classify (ps : List Parameter) (word : String) : Outcome Word :=
  if !startsWith word "-" then .ok .value
  else
    match named? ps word with
    | some p => .ok (.option p word none)
    | none =>
      if word == "-" then .ok .value
      else
        let exact := (find? "=" word).bind fun i =>
          (named? ps (take word i)).map fun p =>
            Word.option p (take word i) (some (drop word (i + 1)))
        match exact with
        | some w => .ok w
        | none =>
          match candidates ps word with
          | [w] => .ok w
          | _ :: _ :: _ => misuse
          | [] =>
            if isNegativeNumber word || occursIn " " word then .ok .value else .ok .unknown

def classifyAll (ps : List Parameter) : List String → Outcome (List (String × Word))
  | [] => .ok []
  | w :: rest =>
    if w == "--" then .ok ((w, .mark) :: rest.map fun r => (r, .value))
    else do return (w, ← classify ps w) :: (← classifyAll ps rest)

def readValue (p : Parameter) (s : String) : Outcome Json :=
  if !p.choices.isEmpty && !p.choices.contains s then misuse
  else if p.isNumber then
    match readInt? s with
    | some n => .ok (.int n)
    | none => misuse
  else .ok (.str s)

def valueOf (p : Parameter) (words : List String) : Outcome Json :=
  match p.arity, words with
  | .flag, _ => .ok (.bool true)
  | .help, _ => .error 0
  | .many, ws => do return .arr (← ws.mapM (readValue p))
  | _, w :: _ => readValue p w
  | _, [] => .ok p.default

def takes (p : Parameter) (values : Nat) : Outcome Nat :=
  match p.arity with
  | .flag | .help => .ok 0
  | .one => if values == 0 then misuse else .ok 1
  | .optional => .ok (min values 1)
  | .many => if values == 0 then misuse else .ok values

structure Reading where
  rest : List (String × Word)
  open' : List Parameter
  values : Dict Json := []
  seen : List String := []
  extra : Bool := false
  command : Option (String × List String) := none

def Reading.give (r : Reading) (p : Parameter) (words : List String) : Outcome Reading := do
  return { r with values := Dict.set r.values p.key (← valueOf p words), seen := p.key :: r.seen }

/-- Reads options run together behind one dash; `tail` is what follows the letter read last. -/
def together (ps : List Parameter) : Nat → Reading → Parameter → String → String → Outcome Reading
  | 0, _, _, _, _ => misuse
  | fuel + 1, r, p, name, tail =>
    match p.arity with
    | .flag | .help =>
      if startsWith name "--" || tail.isEmpty then misuse
      else do
        let r ← r.give p []
        let letter := "-" ++ take tail 1
        match named? ps letter with
        | none => misuse
        | some q =>
          let tail := drop tail 1
          if tail.isEmpty then
            let values := (r.rest.map (·.2)).takeWhile Word.isValue
            let n ← takes q values.length
            let r' ← r.give q ((r.rest.take n).map (·.1))
            return { r' with rest := r.rest.drop n }
          else together ps fuel r q letter tail
    | _ => r.give p [tail]

def readOption (ps : List Parameter) (r : Reading) : Outcome Reading :=
  match r.rest with
  | (_, .option p name value) :: rest =>
    let r := { r with rest }
    match value with
    | some v => together ps (size v + 1) r p name v
    | none => do
      let values := (rest.map (·.2)).takeWhile Word.isValue
      let n ← takes p values.length
      let r ← r.give p ((rest.take n).map (·.1))
      return { r with rest := rest.drop n }
  | _ :: rest => .ok { r with rest, extra := true }
  | [] => .ok r

def dropMark : List (String × Word) → List String
  | [] => []
  | (_, .mark) :: rest => rest.map (·.1)
  | (w, _) :: rest => w :: dropMark rest

/-- How many of the words in front of the next option a positional parameter takes, marks included;
none if it needs a value and there is none. -/
def share? (p : Parameter) (words : List Word) : Option Nat :=
  let marks := (words.takeWhile fun w => !w.isValue && !w.isOption).length
  let afterMarks := words.drop marks
  match afterMarks with
  | .value :: rest =>
    some (marks + 1 + (rest.takeWhile fun w => !w.isValue && !w.isOption).length)
  | _ => if p.arity == .optional then some marks else none

def readPositionals (g : Grammar) : Nat → Reading → Outcome Reading
  | 0, r => .ok r
  | fuel + 1, r =>
    match r.open' with
    | p :: more =>
      match share? p (r.rest.map (·.2)) with
      | some n => do
        let r ← ({ r with open' := more }).give p (dropMark (r.rest.take n))
        readPositionals g fuel { r with rest := r.rest.drop n }
      | none => .ok r
    | [] =>
      if g.commands.isEmpty || r.command.isSome then .ok r
      else
        match r.rest.dropWhile fun (_, w) => !w.isValue && !w.isOption with
        | (_, .value) :: _ =>
          match r.rest.map (·.1) with
          | w :: rest =>
            if (g.commands.lookup w).isSome then
              .ok { r with command := some (w, rest), rest := [] }
            else misuse
          | [] => .ok r
        | _ => .ok r

def readWords (g : Grammar) (ps : List Parameter) : Nat → Reading → Outcome Reading
  | 0, r => .ok r
  | fuel + 1, r =>
    if !r.rest.any (·.2.isOption) then do
      let r ← readPositionals g (r.open'.length + 1) r
      return { r with extra := r.extra || !r.rest.isEmpty, rest := [] }
    else
      match r.rest with
      | (_, w) :: _ =>
        if w.isOption then do readWords g ps fuel (← readOption ps r)
        else do
          let after ← readPositionals g (r.open'.length + 1) r
          if after.rest.length < r.rest.length then readWords g ps fuel after
          else
            let rest := after.rest.dropWhile fun (_, w) => !w.isOption
            readWords g ps fuel { after with rest, extra := true }
      | [] => .ok r

/-- Reads a command line; `fuel` bounds the depth of commands. Tells whether words were left. -/
def parseFrom : Nat → Grammar → List String → Outcome (Dict Json × Bool)
  | 0, _, _ => misuse
  | fuel + 1, g, words => do
    let ps := g.parameters
    let options := ps.filter (!·.names.isEmpty)
    let positionals := ps.filter (·.names.isEmpty)
    let tagged ← classifyAll options words
    let r ← readWords g options (2 * words.length + 2) { rest := tagged, open' := positionals }
    let (below, extraBelow) ← match r.command with
      | some (name, rest) =>
        match g.commands.lookup name with
        | some sub => parseFrom fuel sub rest
        | none => misuse
      | none => pure ([], false)
    if ps.any fun p => p.required && !r.seen.contains p.key then misuse
    else
      let defaults := (ps.filter fun p => p.arity != .help).map fun p => (p.key, p.default)
      let command := if g.commands.isEmpty then [] else
        [(g.commandKey, ((r.command.map fun c => Json.str c.1).getD .null))]
      let all := (command ++ r.values ++ below).foldl (fun d (k, v) => Dict.set d k v)
        (Dict.ofPairs defaults)
      return (all, r.extra || extraBelow)

def parse (g : Grammar) (words : List String) : Outcome (Dict Json) := do
  let (values, extra) ← parseFrom (words.length + 1) g words
  if extra then misuse else return values

/-- The text of a parameter, empty if it has none. -/
def textOf (values : Dict Json) (key : String) : String :=
  ((values.get? key).bind Json.str?).getD ""

def text? (values : Dict Json) (key : String) : Option String := (values.get? key).bind Json.str?

/-- The whole number of a parameter, zero if it has none. -/
def numberOf (values : Dict Json) (key : String) : Int := ((values.get? key).bind Json.int?).getD 0

def isOn (values : Dict Json) (key : String) : Bool :=
  ((values.get? key).bind Json.bool?).getD false

def texts? (values : Dict Json) (key : String) : Option (List String) :=
  ((values.get? key).bind Json.arr?).map fun l => l.filterMap Json.str?

end CodeAtlas.CommandLine
