import CodeAtlas.Proofs.CompileCommands.Database
import CodeAtlas.Proofs.Pattern.Written
import CodeAtlas.Proofs.Text.Words

/-!
# Include paths of a command line

The arguments of an entry are joined to one text, and where one of them ends is
not seen any more. So a flag counts at the first place where it stands in a word
(`afterFirst?`), and its path is the rest of that word or else the next word. What
the arguments say is read in the same way (`operandsBy`) from the arguments
themselves, and there a flag counts at the start of an argument (`afterStart?`).
-/

namespace CodeAtlas.Text

open List

variable {blanks flag w rest p : List Char}

def word? (cs : List Char) : Option (String × List Char) :=
  let here := cs.dropWhile isBlank
  let word := here.takeWhile (!isBlank ·)
  if word.isEmpty then none else some (String.ofList word, here.dropWhile (!isBlank ·))

theorem word?_of_blank (h : ∀ c ∈ blanks, isBlank c = true) : word? blanks = none := by
  have hnil : blanks.dropWhile isBlank = [] := dropWhile_eq_nil_iff.2 h
  simp [word?, hnil]

theorem IsWord.head (hw : IsWord w) {c : Char} (hc : (w ++ rest).head? = some c) :
    isBlank c = false := by
  cases w with
  | nil => exact absurd rfl hw.1
  | cons d w =>
    cases hc
    exact hw.2 c mem_cons_self

theorem word?_word (h : ∀ c ∈ blanks, isBlank c = true) (hw : IsWord w) (hrest : StartsBlank rest) :
    word? (blanks ++ (w ++ rest)) = some (String.ofList w, rest) := by
  have hink : ∀ c ∈ w, (!isBlank c) = true := by simpa using hw.2
  have hstop : ∀ c, rest.head? = some c → (!isBlank c) = false := by
    intro c hc
    rw [hrest c hc]
    rfl
  rw [word?, Pattern.dropWhile_append_stop h (fun _ => hw.head),
    Pattern.takeWhile_append_stop hink hstop, Pattern.dropWhile_append_stop hink hstop]
  simp [hw.1]

theorem word_cases (cs : List Char) : (∀ c ∈ cs, isBlank c = true) ∨ ∃ blanks w rest,
    cs = blanks ++ (w ++ rest) ∧ (∀ c ∈ blanks, isBlank c = true) ∧ IsWord w ∧
      StartsBlank rest := by
  induction cs using word_induction with
  | blank blanks h => exact .inl h
  | word blanks w rest h hw hrest _ => exact .inr ⟨blanks, w, rest, rfl, h, hw, hrest⟩

/-- A flag without white space does not reach over the end of a word. -/
theorem dropStart?_append_blank (hflag : ∀ c ∈ flag, isBlank c = false) (hrest : StartsBlank rest)
    (w : List Char) : dropStart? flag (w ++ rest) = (dropStart? flag w).map (· ++ rest) := by
  induction flag generalizing w with
  | nil => rfl
  | cons f flag ih =>
    obtain ⟨hf, hflag⟩ := forall_mem_cons.1 hflag
    cases w with
    | nil =>
      cases rest with
      | nil => rfl
      | cons c rest =>
        have hfc : f ≠ c := by
          rintro rfl
          exact Bool.false_ne_true (hf.symm.trans (hrest f rfl))
        simp [dropStart?, hfc]
    | cons c w =>
      by_cases hfc : f = c
      · simpa [dropStart?, hfc] using ih hflag w
      · simp [dropStart?, hfc]

/-- What stands behind the first place where a flag occurs. -/
def behindFirst? (flag : List Char) : List Char → Option (List Char)
  | [] => none
  | c :: cs => (dropStart? flag (c :: cs)).or (behindFirst? flag cs)

theorem suffix_of_behindFirst? (h : behindFirst? flag w = some p) : flag ++ p <:+ w := by
  induction w with
  | nil => cases h
  | cons c w ih =>
    rcases Option.or_eq_some_iff.1 h with h | ⟨-, h⟩
    · exact ⟨[], (eq_append_of_dropStart? h).symm⟩
    · exact (ih h).trans (suffix_cons c w)

theorem isWord_of_behindFirst? (hw : IsWord w) (hne : p ≠ []) (h : behindFirst? flag w = some p) :
    IsWord p := by
  refine ⟨hne, fun c hc => hw.2 c ?_⟩
  exact (suffix_of_behindFirst? h).subset (mem_append_right flag hc)

theorem behindFirst?_of_dropStart? (hne : w ≠ []) (h : dropStart? flag w = some p) :
    behindFirst? flag w = some p := by
  cases w with
  | nil => exact absurd rfl hne
  | cons c w => rw [behindFirst?, h, Option.some_or]

theorem behindFirst?_of_infix (hne : flag ≠ []) (h : flag <:+: w) : behindFirst? flag w ≠ none := by
  obtain ⟨before, after, rfl⟩ := h
  rw [append_assoc]
  induction before with
  | nil =>
    have hstart := behindFirst?_of_dropStart? (append_ne_nil_of_left_ne_nil hne after)
      (dropStart?_append flag after)
    rw [nil_append, hstart]
    exact Option.some_ne_none after
  | cons c before ih =>
    intro hnone
    exact ih (Option.or_eq_none_iff.1 hnone).2

end CodeAtlas.Text

namespace CodeAtlas.CompilationDatabase

open Pattern Text List

variable {blanks w : List Char} {arguments items : List String}

/-! ### Flags in a text -/

section

variable {flag : List Char}

def operand? (flag cs : List Char) : Option (String × List Char) := (dropStart? flag cs).bind word?

def inkSet : CharSet := { items := [.blank false], negated := true }

theorem holds_inkSet (c : Char) : inkSet.holds c = !isBlank c := by
  simp [inkSet, CharSet.holds, CharItem.holds]

def behindPattern : Pattern :=
  .seq (.rounds (.char blankSet) 0 none true) (.group 1 (.rounds (.char inkSet) 1 none true))

def operandPattern (flag : List Char) : Pattern :=
  .seq (.seq (wordPattern flag) (.rounds (.char blankSet) 0 none true))
    (.group 1 (.rounds (.char inkSet) 1 none true))

section

variable {cs : List Char} {pos : Nat} {captures : List Capture}
  {rest : Progress → Option Progress}

theorem run_operandPattern :
    (operandPattern flag).run cs.toArray rest ⟨pos, captures⟩ =
      (dropStart? flag (cs.drop pos)).bind fun _ =>
        behindPattern.run cs.toArray rest ⟨pos + flag.length, captures⟩ := by
  rw [operandPattern, run_seq, run_seq, wordPattern, run_pieces]
  exact run_word flag

theorem run_behindPattern_none (h : ∀ c ∈ cs.drop pos, isBlank c = true) :
    behindPattern.run cs.toArray rest ⟨pos, captures⟩ = none := by
  have hset : blankSet.holds = isBlank := funext holds_blankSet
  have hnone : ∀ p, (∀ c, (cs.drop p).head? = some c → isBlank c = true) →
      (Pattern.group 1 (.rounds (.char inkSet) 1 none true)).run cs.toArray rest
        ⟨p, captures⟩ = none := by
    intro p hp
    rw [run_group]
    refine run_rounds_char_none Nat.zero_lt_one fun c hc => ?_
    rw [holds_inkSet, hp c hc]
    rfl
  rw [behindPattern, run_seq, run_rounds_char_only, if_neg (Nat.not_lt_zero _)]
  · refine hnone _ fun c hc => ?_
    rw [← drop_drop] at hc
    exact h c (mem_of_mem_drop (mem_of_mem_head? hc))
  · intro p c after hdrop hc
    refine hnone p fun d hd => ?_
    rw [hdrop] at hd
    cases hd
    rwa [hset] at hc

theorem run_behindPattern_some {after : List Char} (hdrop : cs.drop pos = blanks ++ (w ++ after))
    (h : ∀ c ∈ blanks, isBlank c = true) (hw : IsWord w) (hafter : StartsBlank after) :
    behindPattern.run cs.toArray some ⟨pos, captures⟩ =
      some ⟨pos + blanks.length + w.length,
        ⟨1, pos + blanks.length, pos + blanks.length + w.length⟩ :: captures⟩ := by
  refine run_rounds_char_all hdrop (fun c hc => ?_) (fun c hc => ?_) (Nat.zero_le _) ?_
  · rw [holds_blankSet, h c hc]
  · rw [holds_blankSet, hw.head hc]
  · rw [run_group]
    refine run_rounds_char_all (drop_add hdrop) (fun c hc => ?_) (fun c hc => ?_) ?_ rfl
    · rw [holds_inkSet, hw.2 c hc]
      rfl
    · rw [holds_inkSet, hafter c hc]
      rfl
    · exact length_pos_iff.2 hw.1

end

theorem reads_operand (hflag : flag ≠ []) :
    Reads (operandPattern flag) (·.group 1) (operand? flag) := by
  refine .of_run fun cs pos => ?_
  rw [run_operandPattern, operand?]
  cases hstart : dropStart? flag (cs.drop pos) with
  | none => exact .inl ⟨rfl, rfl⟩
  | some behind =>
    have hsplit := eq_append_of_dropStart? hstart
    have hdrop := drop_add hsplit
    rw [Option.bind_some, Option.bind_some]
    rcases word_cases behind with hblank | ⟨blanks, w, after, rfl, hblanks, hw, hafter⟩
    · exact .inl ⟨word?_of_blank hblank, run_behindPattern_none (by rwa [hdrop])⟩
    · rw [word?_word hblanks hw hafter, run_behindPattern_some hdrop hblanks hw hafter]
      refine .inr ⟨flag ++ (blanks ++ w), after, _, _, by simpa using hsplit, by simp [hflag], ?_,
        rfl, ?_⟩
      · rw [length_append, length_append, ← Nat.add_assoc, ← Nat.add_assoc]
      · exact congrArg (fun a => some (a, after)) (Match.between_drop (drop_add hdrop)).symm

/-- The operands of a flag in a list of words, where `behind?` tells what follows the flag in a
word that has it. If that is nothing, the operand is the next word. -/
def operandsBy (behind? : String → Option String) : Bool → List String → List String
  | _, [] => []
  | true, word :: words => word :: operandsBy behind? false words
  | false, word :: words =>
    match behind? word with
    | none => operandsBy behind? false words
    | some path =>
      if path = "" then operandsBy behind? true words else path :: operandsBy behind? false words

/-- What follows the flag where it first stands in a word. -/
def afterFirst? (flag word : String) : Option String :=
  (behindFirst? flag.toList word.toList).map String.ofList

/-- What follows the flag in a word that starts with it. -/
def afterStart? (flag word : String) : Option String :=
  (dropStart? flag.toList word.toList).map String.ofList

section

variable (hflag : IsWord flag)
include hflag

theorem operand?_append_none {rest : List Char} (hrest : StartsBlank rest)
    (h : dropStart? flag w = none) : operand? flag (w ++ rest) = none := by
  rw [operand?, dropStart?_append_blank hflag.2 hrest, h]
  rfl

theorem scan_blanks {cs : List Char} (h : ∀ c ∈ blanks, isBlank c = true)
    (hcs : Scan (operand? flag) cs items) : Scan (operand? flag) (blanks ++ cs) items := by
  have hnil : dropStart? flag [] = none := by
    cases flag with
    | nil => exact absurd rfl hflag.1
    | cons f flag => rfl
  refine Scan.skip_append (fun c hc after => ?_) hcs
  exact operand?_append_none hflag (startsBlank_cons (h c hc) after) hnil

theorem scan_skip {rest : List Char} (hw : behindFirst? flag w = none)
    (hrest : StartsBlank rest) (h : Scan (operand? flag) rest items) :
    Scan (operand? flag) (w ++ rest) items := by
  induction w with
  | nil => exact h
  | cons c w ih =>
    obtain ⟨hstart, hbehind⟩ := Option.or_eq_none_iff.1 hw
    exact .skip (operand?_append_none hflag hrest hstart) (ih hbehind)

theorem scan_reach {p rest : List Char} (hw : behindFirst? flag w = some p)
    (hrest : StartsBlank rest) (h : Scan (operand? flag) (flag ++ (p ++ rest)) items) :
    Scan (operand? flag) (w ++ rest) items := by
  induction w with
  | nil => cases hw
  | cons c w ih =>
    rcases Option.or_eq_some_iff.1 hw with hstart | ⟨hstart, hbehind⟩
    · rwa [eq_append_of_dropStart? hstart, append_assoc]
    · exact .skip (operand?_append_none hflag hrest hstart) (ih hbehind)

theorem scan_last (h : ∀ c ∈ blanks, isBlank c = true) :
    Scan (operand? flag) (flag ++ blanks) [] := by
  have hblanks : Scan (operand? flag) blanks [] := by
    rw [← append_nil blanks]
    exact scan_blanks hflag h .done
  have hhere : operand? flag (flag ++ blanks) = none := by
    rw [operand?, dropStart?_append, Option.bind_some, word?_of_blank h]
  cases flag with
  | nil => exact hblanks
  | cons f flag =>
    -- the rest of the flag is too short to hold it
    have hshort : behindFirst? (f :: flag) flag = none := by
      refine Option.eq_none_iff_forall_ne_some.2 fun p hp => ?_
      have hlength := (suffix_of_behindFirst? hp).length_le
      simp only [length_append, length_cons] at hlength
      omega
    refine .skip hhere (scan_skip hflag hshort (fun c hc => ?_) hblanks)
    exact h c (mem_of_mem_head? hc)

end

theorem scan_operands {flag : String} (hflag : IsWord flag.toList) (cs : List Char) :
    Scan (operand? flag.toList) cs
        (operandsBy (afterFirst? flag) false ((wordsList cs).map String.ofList)) ∧
      Scan (operand? flag.toList) (flag.toList ++ cs)
        (operandsBy (afterFirst? flag) true ((wordsList cs).map String.ofList)) := by
  induction cs using word_induction with
  | blank blanks h =>
    have hblanks := scan_blanks hflag h .done
    rw [append_nil] at hblanks
    rw [wordsList_of_blank h]
    exact ⟨hblanks, scan_last hflag h⟩
  | word blanks w rest h hw hrest ih =>
    have hfirst : wordsList (blanks ++ (w ++ rest)) = w :: wordsList rest := by
      rw [wordsList_blanks h, wordsList_word hw hrest]
    have hfound : ∀ blanks v, (∀ c ∈ blanks, isBlank c = true) → IsWord v →
        operand? flag.toList (flag.toList ++ (blanks ++ (v ++ rest))) =
          some (String.ofList v, rest) := by
      intro blanks v hblanks hv
      rw [operand?, dropStart?_append, Option.bind_some, word?_word hblanks hv hrest]
    rw [hfirst, map_cons]
    refine ⟨scan_blanks hflag h ?_, .found (hfound blanks w h hw) ih.1⟩
    rw [operandsBy, afterFirst?, String.toList_ofList]
    cases hbehind : behindFirst? flag.toList w with
    | none => exact scan_skip hflag hbehind hrest ih.1
    | some p =>
      refine scan_reach hflag hbehind hrest ?_
      cases p with
      | nil => exact ih.2
      | cons c p =>
        have hp := isWord_of_behindFirst? hw (cons_ne_nil c p) hbehind
        have hne : String.ofList (c :: p) ≠ "" := by simp
        dsimp only [Option.map_some]
        rw [if_neg hne]
        exact .found (hfound [] (c :: p) (by simp) hp) ih.1

theorem map_group_findAll {flag : String} (hflag : IsWord flag.toList) (line : String) :
    ((operandPattern flag.toList).findAll line).map (·.group 1) =
      operandsBy (afterFirst? flag) false (words line) :=
  findAll_of_scan (reads_operand hflag.1) (scan_operands hflag line.toList).1

end

/-! ### Operands found and operands stated -/

section

variable {flag : String}

/-- The operands that a reader of the joined arguments finds. -/
def foundOperands (flag : String) (arguments : List String) : List String :=
  operandsBy (afterFirst? flag) false (arguments.flatMap words)

/-- The operands that the arguments state. -/
def statedOperands (flag : String) (arguments : List String) : List String :=
  operandsBy (afterStart? flag) false arguments

section

variable {behind? : String → Option String} {word path : String} {words : List String}

theorem operandsBy_of_none (h : behind? word = none) :
    operandsBy behind? false (word :: words) = operandsBy behind? false words := by
  rw [operandsBy, h]

theorem operandsBy_of_empty (h : behind? word = some "") :
    operandsBy behind? false (word :: words) = operandsBy behind? true words := by
  rw [operandsBy, h]
  rfl

theorem operandsBy_of_some (h : behind? word = some path) (hpath : path ≠ "") :
    operandsBy behind? false (word :: words) = path :: operandsBy behind? false words := by
  rw [operandsBy, h]
  exact if_neg hpath

theorem operandsBy_append (h : ∀ word ∈ words, behind? word = none) (more : List String) :
    operandsBy behind? false (words ++ more) = operandsBy behind? false more := by
  induction words with
  | nil => rfl
  | cons word words ih =>
    obtain ⟨hword, hwords⟩ := forall_mem_cons.1 h
    rw [cons_append, operandsBy_of_none hword, ih hwords]

end

theorem isWord_of_mem_operandsBy {skip : Bool} {ws : List String}
    (hws : ∀ w ∈ ws, IsWord w.toList) {p : String}
    (hp : p ∈ operandsBy (afterFirst? flag) skip ws) : IsWord p.toList := by
  induction ws generalizing skip with
  | nil => cases skip <;> cases hp
  | cons w ws ih =>
    obtain ⟨hw, hws⟩ := forall_mem_cons.1 hws
    cases skip with
    | true =>
      rcases mem_cons.1 hp with rfl | hp
      · exact hw
      · exact ih hws hp
    | false =>
      cases hbehind : afterFirst? flag w with
      | none => exact ih hws (operandsBy_of_none hbehind ▸ hp)
      | some path =>
        by_cases hpath : path = ""
        · exact ih hws (operandsBy_of_empty (hpath ▸ hbehind) ▸ hp)
        · rw [operandsBy_of_some hbehind hpath] at hp
          rcases mem_cons.1 hp with rfl | hp
          · obtain ⟨cs, hcs, rfl⟩ := Option.map_eq_some_iff.1 hbehind
            rw [String.toList_ofList]
            exact isWord_of_behindFirst? hw (fun hnil => hpath (by rw [hnil])) hcs
          · exact ih hws hp

theorem afterFirst?_of_mem_words (hflag : IsWord flag.toList) {text w : String}
    (h : afterFirst? flag text = none) (hw : w ∈ words text) : afterFirst? flag w = none := by
  refine Option.map_eq_none_iff.2 (Option.eq_none_iff_forall_ne_some.2 fun p hp => ?_)
  have hinside : flag.toList <:+: w.toList :=
    List.IsInfix.trans (prefix_append _ p).isInfix (suffix_of_behindFirst? hp).isInfix
  have htext := behindFirst?_of_infix hflag.1 (hinside.trans (isWord_of_mem_words hw).2)
  exact htext (Option.map_eq_none_iff.1 h)

theorem operandsBy_flatMap_words (hflag : IsWord flag.toList) {skip : Bool}
    (hstart : ∀ a ∈ arguments, afterFirst? flag a = afterStart? flag a)
    (hwords : ∀ p ∈ operandsBy (afterStart? flag) skip arguments, IsWord p.toList) :
    operandsBy (afterFirst? flag) skip (arguments.flatMap words) =
      operandsBy (afterStart? flag) skip arguments := by
  induction arguments generalizing skip with
  | nil => cases skip <;> rfl
  | cons a arguments ih =>
    obtain ⟨ha, hstart⟩ := forall_mem_cons.1 hstart
    rw [flatMap_cons]
    cases skip with
    | true =>
      obtain ⟨hword, hwords⟩ := forall_mem_cons.1 hwords
      rw [words_of_isWord hword]
      exact congrArg (a :: ·) (ih hstart hwords)
    | false =>
      cases hbehind : afterStart? flag a with
      | none =>
        rw [operandsBy_of_none hbehind] at hwords ⊢
        rw [operandsBy_append fun w => afterFirst?_of_mem_words hflag (ha.trans hbehind)]
        exact ih hstart hwords
      | some path =>
        have hlist : a.toList = flag.toList ++ path.toList := by
          obtain ⟨cs, hcs, rfl⟩ := Option.map_eq_some_iff.1 hbehind
          rw [String.toList_ofList]
          exact eq_append_of_dropStart? hcs
        have hone : (∀ c ∈ path.toList, isBlank c = false) → words a = [a] := by
          intro hpath
          apply words_of_isWord
          rw [hlist]
          refine ⟨append_ne_nil_of_left_ne_nil hflag.1 _, fun c hc => ?_⟩
          exact (mem_append.1 hc).elim (hflag.2 c) (hpath c)
        by_cases hpath : path = ""
        · subst hpath
          rw [operandsBy_of_empty hbehind] at hwords ⊢
          rw [hone (by simp), singleton_append, operandsBy_of_empty (ha.trans hbehind)]
          exact ih hstart hwords
        · rw [operandsBy_of_some hbehind hpath] at hwords ⊢
          obtain ⟨hword, hwords⟩ := forall_mem_cons.1 hwords
          rw [hone hword.2, singleton_append,
            operandsBy_of_some (ha.trans hbehind) hpath, ih hstart hwords]

theorem foundOperands_eq_iff (hflag : IsWord flag.toList)
    (hstart : ∀ a ∈ arguments, afterFirst? flag a = afterStart? flag a) :
    foundOperands flag arguments = statedOperands flag arguments ↔
      ∀ p ∈ statedOperands flag arguments, IsWord p.toList := by
  constructor
  · intro h p hp
    rw [← h] at hp
    refine isWord_of_mem_operandsBy (fun w hw => ?_) hp
    obtain ⟨a, -, ha⟩ := mem_flatMap.1 hw
    exact (isWord_of_mem_words ha).1
  · exact operandsBy_flatMap_words hflag hstart

end

/-! ### Entries -/

theorem includePattern_eq : includePattern = operandPattern "-I".toList := by decide +kernel

theorem systemPattern_eq : systemPattern = operandPattern "-isystem".toList := by decide +kernel

theorem commandLine_ofStrings {entry : Json} (hcommand : entry.get? "command" = none)
    (harguments : entry.get? "arguments" = some (.ofStrings arguments)) :
    commandLine entry = .ok (join " " arguments) := by
  have hwords : joinWords (.ofStrings arguments) = .ok (join " " arguments) := by
    rw [joinWords, Json.ofStrings, itemsOf]
    dsimp only
    rw [mapM_map, mapM_eq_ok (g := id), map_id]
    · rfl
    · intro a _
      rfl
  rw [commandLine, Json.getD, hcommand, harguments]
  exact hwords

/-- A path of an entry with a directory. -/
def inDirectory (directory path : String) : String :=
  if Path.isAbsolute path then path else Path.normalize (Path.join directory path)

theorem fromDirectory_eq (directory path : String) :
    CompileCommands.fromDirectory (.str directory) path = .ok (inDirectory directory path) := by
  rw [CompileCommands.fromDirectory, inDirectory]
  split <;> rfl

theorem isWord_flag : ∀ flag ∈ ["-I", "-isystem"], IsWord flag.toList := by decide

theorem includePaths_of_arguments {d : CompilationDatabase} {file directory : String}
    {entry : Json} (hentry : d.command? file = some entry) (hcommand : entry.get? "command" = none)
    (harguments : entry.get? "arguments" = some (.ofStrings arguments))
    (hdirectory : entry.getD "directory" (.str "") = .str directory) :
    d.includePaths file = .ok ((foundOperands "-I" arguments ++
      foundOperands "-isystem" arguments).map (inDirectory directory)) := by
  rw [includePaths, hentry]
  dsimp only
  rw [commandLine_ofStrings hcommand harguments, hdirectory]
  change mapM _ (map _ (_ ++ _)) = _
  rw [map_append, includePattern_eq, systemPattern_eq,
    map_group_findAll (isWord_flag _ (by simp)), map_group_findAll (isWord_flag _ (by simp)),
    words_join_eq_flatMap]
  exact mapM_eq_ok fun p _ => fromDirectory_eq directory p

/-- The include paths of a file are the operands of its flags in the joined arguments. If a flag
stands nowhere but at the start of arguments, these are the operands that the arguments state
exactly if none of them is empty or has white space. -/
theorem includePaths_eq_operands {d : CompilationDatabase} {file directory : String} {entry : Json}
    {arguments : List String} (hentry : d.command? file = some entry)
    (hcommand : entry.get? "command" = none)
    (harguments : entry.get? "arguments" = some (.ofStrings arguments))
    (hdirectory : entry.getD "directory" (.str "") = .str directory) :
    d.includePaths file = .ok ((foundOperands "-I" arguments ++
        foundOperands "-isystem" arguments).map (inDirectory directory)) ∧
      ∀ flag ∈ ["-I", "-isystem"],
        (∀ a ∈ arguments, afterFirst? flag a = afterStart? flag a) →
          (foundOperands flag arguments = statedOperands flag arguments ↔
            ∀ p ∈ statedOperands flag arguments, IsWord p.toList) := by
  refine ⟨includePaths_of_arguments hentry hcommand harguments hdirectory, ?_⟩
  intro flag hflag
  exact foundOperands_eq_iff (isWord_flag flag hflag)

/-- The entry of a file with a directory and arguments. -/
def entryIn (directory : String) (arguments : List String) : Json :=
  .obj [("directory", .str directory), ("arguments", .ofStrings arguments)]

/-- A database with the entry of a file `a.c`. -/
def databaseIn (directory : String) (arguments : List String) : CompilationDatabase where
  entries := [("a.c", entryIn directory arguments)]

theorem includePaths_eq_operands_plain :
    command? (databaseIn "/w" ["cc", "-I", "b", "-isystem/c"]) "a.c" =
        some (entryIn "/w" ["cc", "-I", "b", "-isystem/c"]) ∧
      (∀ flag ∈ ["-I", "-isystem"], statedOperands flag ["cc", "-I", "b", "-isystem/c"] =
        foundOperands flag ["cc", "-I", "b", "-isystem/c"]) ∧
      (databaseIn "/w" ["cc", "-I", "b", "-isystem/c"]).includePaths "a.c" =
        .ok ["/w/b", "/c"] := by
  have hentry : command? (databaseIn "/w" ["cc", "-I", "b", "-isystem/c"]) "a.c" =
      some (entryIn "/w" ["cc", "-I", "b", "-isystem/c"]) := rfl
  obtain ⟨hpaths, hsame⟩ := includePaths_eq_operands hentry rfl rfl rfl
  refine ⟨hentry, fun flag hflag => ((hsame flag hflag ?_).2 ?_).symm, hpaths.trans rfl⟩
  · revert flag
    decide +kernel
  · revert flag
    decide +kernel

/-- A path with white space is cut, and a flag inside of another option counts. -/
theorem includePaths_at_white_space :
    ((databaseIn "/w" ["cc", "-I", "b c"]).includePaths "a.c" = .ok ["/w/b"] ∧
        statedOperands "-I" ["cc", "-I", "b c"] = ["b c"]) ∧
      (databaseIn "/w" ["cc", "-DX-Ib"]).includePaths "a.c" = .ok ["/w/b"] ∧
        statedOperands "-I" ["cc", "-DX-Ib"] = [] := by
  have hentry : ∀ arguments, command? (databaseIn "/w" arguments) "a.c" =
      some (entryIn "/w" arguments) := fun _ => rfl
  refine ⟨⟨?_, rfl⟩, ?_, rfl⟩
  · exact (includePaths_of_arguments (hentry _) rfl rfl rfl).trans rfl
  · exact (includePaths_of_arguments (hentry _) rfl rfl rfl).trans rfl

end CodeAtlas.CompilationDatabase
