import CodeAtlas.Proofs.CompileCommands.Database

/-!
# Options of a command line

Whether a word is kept depends on the words in front of it only through one
bit: whether the word before it takes it along. So the options are told by
marks, one for each word (`marks`), and by which words take the next one along.
Here `-o` does, as it should, and so does `-c`, which has no operand. The marks
are right up to a `-c`; from there on they stay wrong as long as words `-o`
follow, so the first other word decides (`marks_eq_iff`).
-/

namespace CodeAtlas.CompilationDatabase

open Text

variable {word file : String} {words : List String}

/-- The word passes for the source file. -/
def isInput (file word : String) : Bool := word == file || endsWith word (Path.baseName file)

/-- The word is an option: neither the source file nor a flag for the output or for compiling. -/
def isOption (file word : String) : Bool :=
  !isInput file word && !startsWith word "-o" && !startsWith word "-c"

/-- The word takes the next one along. -/
def takesNext (file word : String) : Bool := !isInput file word && (word == "-o" || word == "-c")

/-- For each word whether it is kept, where some words take the next one along. -/
def marks (takes : String → Bool) (file : String) : Bool → List String → List Bool
  | _, [] => []
  | true, _ :: rest => false :: marks takes file false rest
  | false, word :: rest => isOption file word :: marks takes file (takes word) rest

/-- The words that are kept. -/
def keptWords (takes : String → Bool) (file : String) (skip : Bool) (words : List String) :
    List String :=
  ((words.zip (marks takes file skip words)).filter (·.2)).map (·.1)

theorem keptWords_cons (takes : String → Bool) (file word : String) (words : List String) :
    keptWords takes file false (word :: words) =
      if isOption file word then word :: keptWords takes file (takes word) words
      else keptWords takes file (takes word) words := by
  rw [keptWords, marks, List.zip_cons_cons, List.filter_cons]
  split <;> rfl

theorem keepOptions_eq (file : String) (skip : Bool) (words : List String) :
    keepOptions file (Path.baseName file) skip (words.map .str) =
      .ok (keptWords (takesNext file) file skip words) := by
  induction words generalizing skip with
  | nil => cases skip <;> rfl
  | cons word words ih =>
    cases skip with
    | true => exact ih false
    | false =>
      rw [List.map_cons, keepOptions, keptWords_cons, isOption, takesNext]
      cases hinput : isInput file word with
      | true =>
        rw [isInput] at hinput
        rw [if_pos hinput]
        exact ih false
      | false =>
        rw [isInput] at hinput
        rw [if_neg (Bool.eq_false_iff.1 hinput)]
        cases hflag : word == "-o" || word == "-c" with
        | true =>
          have hstart : (startsWith word "-o" || startsWith word "-c") = true := by
            rcases Bool.or_eq_true_iff.1 hflag with h | h <;> rw [beq_iff_eq.1 h] <;> rfl
          simpa [← Bool.not_or, hstart] using ih true
        | false =>
          cases hstart : startsWith word "-o" || startsWith word "-c" with
          | true => simpa [← Bool.not_or, hstart] using ih false
          | false => simp [← Bool.not_or, hstart, ih false]

/-! ### The word behind a flag -/

/-- Whether the next word is taken along by those in front of it. -/
def pending (takes : String → Bool) (skip : Bool) (before : List String) : Bool :=
  before.foldl (fun skip word => !skip && takes word) skip

/-- The first word other than `-o` is no option. -/
def NoOptionNext (file : String) (words : List String) : Prop :=
  ∀ word, (words.dropWhile (· == "-o")).head? = some word → isOption file word = false

/-- No `-c` takes an option along, or makes one of the operand of a `-o`. -/
def TakesNoOption (file : String) (skip : Bool) (words : List String) : Prop :=
  ∀ before after, words = before ++ "-c" :: after → pending (takesNext file) skip before = false →
    takesNext file "-c" = true → NoOptionNext file after

theorem isOption_flag (file : String) (h : word = "-o" ∨ word = "-c") :
    isOption file word = false := by
  have ho : startsWith "-o" "-o" = true := rfl
  have hc : startsWith "-c" "-c" = true := rfl
  rcases h with rfl | rfl
  · simp [isOption, ho]
  · simp [isOption, hc]

theorem noOptionNext_cons_iff :
    NoOptionNext file (word :: words) ↔
      isOption file word = false ∧ (word = "-o" → NoOptionNext file words) := by
  by_cases hword : word = "-o"
  · subst hword
    simp [NoOptionNext, isOption_flag]
  · simp [NoOptionNext, hword]

theorem takesNoOption_cons_iff {skip : Bool} :
    TakesNoOption file skip (word :: words) ↔
      (skip = false → word = "-c" → takesNext file "-c" = true → NoOptionNext file words) ∧
        TakesNoOption file (!skip && takesNext file word) words := by
  constructor
  · intro h
    refine ⟨fun hskip hword htakes => h [] words (by rw [hword]; rfl) hskip htakes, ?_⟩
    intro before after hwords
    exact h (word :: before) after (by rw [hwords]; rfl)
  · rintro ⟨hhead, htail⟩ before after hwords hpending htakes
    cases before with
    | nil =>
      cases hwords
      exact hhead hpending rfl htakes
    | cons first before =>
      cases hwords
      exact htail before after rfl hpending htakes

/-- Two readings of a command line keep the same words if they agree on the first word other than
`-o` where they are apart, and never come apart on an option. -/
theorem marks_eq_iff (hfile : isInput file "-o" = false) (skip skip' : Bool) (words : List String) :
    marks (takesNext file) file skip words = marks (· == "-o") file skip' words ↔
      (skip ≠ skip' → NoOptionNext file words) ∧ TakesNoOption file skip words := by
  induction words generalizing skip skip' with
  | nil => simp [marks, NoOptionNext, TakesNoOption]
  | cons word words ih =>
    have htakes : takesNext file word = true ↔
        word = "-o" ∨ word = "-c" ∧ takesNext file "-c" = true := by
      by_cases ho : word = "-o"
      · simp [takesNext, ho, hfile]
      · by_cases hc : word = "-c" <;> simp [takesNext, ho, hc]
    have hapart : takesNext file word ≠ (word == "-o") ↔
        word = "-c" ∧ takesNext file "-c" = true := by
      by_cases ho : word = "-o"
      · simp [ho, takesNext, hfile]
      · rw [beq_false_of_ne ho, Bool.ne_false_iff, htakes, or_iff_right ho]
    rw [takesNoOption_cons_iff, noOptionNext_cons_iff]
    cases skip <;> cases skip' <;> simp only [marks, List.cons.injEq, ih]
    · simp [hapart]
    · simp [htakes, or_imp, and_assoc]
    · simp [and_assoc]
    · simp

/-! ### Entries -/

/-- The words of an entry: its arguments or, if it has none, those of its command. -/
inductive SpelledOut (entry : Json) : List String → Prop where
  | arguments {words : List String} (h : entry.get? "arguments" = some (.ofStrings words)) :
      SpelledOut entry words
  | command {text : String} (harguments : entry.get? "arguments" = none)
      (h : entry.get? "command" = some (.str text)) : SpelledOut entry (Text.words text)

theorem SpelledOut.wordsOf_eq {entry : Json} (h : SpelledOut entry words) :
    wordsOf entry = .ok (words.map .str) := by
  cases h with
  | arguments h => simp [wordsOf, h, Json.ofStrings, itemsOf]
  | command harguments h => simp [wordsOf, harguments, Json.getD, h]

/-- The options are the words that are kept where `-o` and `-c` take the next word along. They are
those kept where only `-o` does exactly if behind each `-c` that is read as a flag the first word
other than `-o` is no option. -/
theorem compilerOptions_eq_keptWords {d : CompilationDatabase} {file : String} {entry : Json}
    {words : List String} (hentry : d.command? file = some entry)
    (hwords : SpelledOut entry words) :
    d.compilerOptions file = .ok (keptWords (takesNext file) file false words.tail) ∧
      (isInput file "-o" = false →
        (marks (takesNext file) file false words.tail = marks (· == "-o") file false words.tail ↔
          TakesNoOption file false words.tail) ∧
        (TakesNoOption file false words.tail →
          d.compilerOptions file = .ok (keptWords (· == "-o") file false words.tail))) := by
  have hoptions : d.compilerOptions file =
      .ok (keptWords (takesNext file) file false words.tail) := by
    rw [← keepOptions_eq, compilerOptions, hentry]
    dsimp only
    rw [hwords.wordsOf_eq, List.map_tail]
    rfl
  refine ⟨hoptions, fun hfile => ?_⟩
  have hmarks := marks_eq_iff hfile false false words.tail
  rw [Ne, eq_self, not_true, false_imp_iff, true_and] at hmarks
  refine ⟨hmarks, fun hnone => ?_⟩
  rw [hoptions, keptWords, keptWords, hmarks.2 hnone]

/-- The entry of a file with arguments. -/
def entryWith (arguments : List String) : Json := .obj [("arguments", .ofStrings arguments)]

/-- A database with the entry of a file `a.c`. -/
def databaseWith (arguments : List String) : CompilationDatabase where
  entries := [("a.c", entryWith arguments)]

theorem compilerOptions_eq_keptWords_last :
    command? (databaseWith ["cc", "-c", "a.c", "-O2"]) "a.c" =
        some (entryWith ["cc", "-c", "a.c", "-O2"]) ∧
      SpelledOut (entryWith ["cc", "-c", "a.c", "-O2"]) ["cc", "-c", "a.c", "-O2"] ∧
      TakesNoOption "a.c" false ["-c", "a.c", "-O2"] ∧
      (databaseWith ["cc", "-c", "a.c", "-O2"]).compilerOptions "a.c" =
        .ok (keptWords (· == "-o") "a.c" false ["-c", "a.c", "-O2"]) := by
  have hentry : command? (databaseWith ["cc", "-c", "a.c", "-O2"]) "a.c" =
      some (entryWith ["cc", "-c", "a.c", "-O2"]) := rfl
  have hwords : SpelledOut (entryWith ["cc", "-c", "a.c", "-O2"]) ["cc", "-c", "a.c", "-O2"] :=
    .arguments rfl
  obtain ⟨hmarks, hoptions⟩ := (compilerOptions_eq_keptWords hentry hwords).2 (by decide)
  have hnone := hmarks.1 (by decide)
  exact ⟨hentry, hwords, hnone, hoptions hnone⟩

/-- An option behind `-c` is lost, and the output file behind `-c -o` is taken for one. -/
theorem compilerOptions_behind_c :
    ((databaseWith ["cc", "-c", "-O2", "a.c"]).compilerOptions "a.c" = .ok [] ∧
        keptWords (· == "-o") "a.c" false ["-c", "-O2", "a.c"] = ["-O2"]) ∧
      (databaseWith ["cc", "-c", "-o", "b", "a.c"]).compilerOptions "a.c" = .ok ["b"] ∧
        keptWords (· == "-o") "a.c" false ["-c", "-o", "b", "a.c"] = [] :=
  ⟨⟨rfl, rfl⟩, rfl, rfl⟩

end CodeAtlas.CompilationDatabase
