import CodeAtlas.Text.Basic

/-!
# Values in texts

A marked text in quotes holds values in braces: an expression, perhaps with an equals sign, the way
to convert it, and a format, which may hold values itself. Doubled braces outside of formats stand
for themselves.
-/

namespace CodeAtlas.Source

/-- A value in a text: the source of its expression, and the values in its format if it has one. -/
inductive Slot where
  | mk (source : String) (format : Option (List Slot))

def closes (opening c : Char) : Bool :=
  (opening == '(' && c == ')') || (opening == '[' && c == ']') || (opening == '\x7b' && c == '\x7d')

/-- The character ends an expression outside of brackets and quotes, if it starts no comparison. -/
def endsSource (c : Char) : Bool := c == '!' || c == ':' || c == '\x7d' || c == '='

def startsComparison (c : Char) (rest : List Char) : Bool :=
  (c == '!' || c == '=' || c == '<' || c == '>') && rest.head? == some '='

/-- Splits off the source of an expression: it ends outside of the brackets in `opened` and of the
quotes in `quote`, where the flag tells triple ones. -/
def takeSource? : Option (Char × Bool) → List Char → List Char → Option (List Char × List Char)
  | _, _, [] => none
  | quote, opened, c :: rest =>
    let more (cs : List Char) := Option.map fun ((s, after) : List Char × List Char) =>
      (cs ++ s, after)
    if c == '\\' then none
    else
      match quote with
      | some (q, false) => more [c] (takeSource? (if c == q then none else quote) opened rest)
      | some (q, true) =>
        match rest with
        | a :: b :: after =>
          if c == q && a == q && b == q then more [c, a, b] (takeSource? none opened after)
          else more [c] (takeSource? quote opened (a :: b :: after))
        | _ => none
      | none =>
        if c == '"' || c == '\'' then
          match rest with
          | a :: b :: after =>
            if a == c && b == c then more [c, a, b] (takeSource? (some (c, true)) opened after)
            else more [c] (takeSource? (some (c, false)) opened (a :: b :: after))
          | l => more [c] (takeSource? (some (c, false)) opened l)
        else if c == '(' || c == '[' || c == '\x7b' then
          more [c] (takeSource? none (c :: opened) rest)
        else if c == '#' then none
        else
          match opened with
          | [] =>
            if startsComparison c rest then
              match rest with
              | d :: after => more [c, d] (takeSource? none [] after)
              | [] => none
            else if endsSource c then some ([], c :: rest)
            else if c == ')' || c == ']' then none
            else more [c] (takeSource? none [] rest)
          | o :: outer =>
            if c == ')' || c == ']' || c == '\x7d' then
              if closes o c then more [c] (takeSource? none outer rest) else none
            else more [c] (takeSource? none opened rest)

def isSourceBlank (c : Char) : Bool :=
  c == ' ' || c == '\t' || c == '\n' || c == '\r' || c == '\x0b' || c == '\x0c'

def conversionEnd? (cs : List Char) : Option (List Char) :=
  let cs := match cs with
    | '=' :: rest => rest.dropWhile isSourceBlank
    | l => l
  match cs with
  | '!' :: c :: rest => if c == 's' || c == 'r' || c == 'a' then some rest else none
  | ['!'] => none
  | l => some l

/-- The values in a text and what follows it, at a depth of formats. A format ends in front of a
closing brace. -/
def slotsFrom? (isRaw : Bool) : Nat → Nat → List Char → Option (List Slot × List Char)
  | 0, _, _ => none
  | _, _, [] => some ([], [])
  | fuel + 1, depth, c :: rest =>
    if c == '\x7b' then
      if depth == 0 && rest.head? == some '\x7b' then slotsFrom? isRaw fuel depth rest.tail
      else if 2 ≤ depth then none
      else do
        let (source, after) ← takeSource? none [] rest
        if source.all isSourceBlank then none
        else
          let after ← conversionEnd? after
          let (format, after) ← match after with
            | ':' :: spec => (slotsFrom? isRaw fuel (depth + 1) spec).map fun (l, r) => (some l, r)
            | l => some (none, l)
          match after with
          | '\x7d' :: after => do
            let (slots, last) ← slotsFrom? isRaw fuel depth after
            return (.mk (String.ofList source) format :: slots, last)
          | _ => none
    else if c == '\x7d' then
      if depth != 0 then some ([], c :: rest)
      else if rest.head? == some '\x7d' then slotsFrom? isRaw fuel depth rest.tail
      else none
    else
      match isRaw, c, rest with
      | false, '\\', 'N' :: '\x7b' :: name =>
        slotsFrom? isRaw fuel depth ((name.dropWhile (· != '\x7d')).drop 1)
      | _, _, rest => slotsFrom? isRaw fuel depth rest

/-- The values in a text; none if it is badly written. -/
def slots? (isRaw : Bool) (text : String) : Option (List Slot) :=
  (slotsFrom? isRaw (text.length + 1) 0 text.toList).map (·.1)

end CodeAtlas.Source
