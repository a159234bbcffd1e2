import CodeAtlas.Proofs.Pattern.Written
import CodeAtlas.Proofs.Session
import CodeAtlas.Search.Sources

/-!
# Searching source files

The pattern for the uses of a name finds the name where a parenthesis opens
behind it and a separator stands in front (`IsUse`). The place that is reported
is the line of the separator, so a name behind a line feed is reported one line
too early (`IsUse.lineAt_name`).

A file pattern is read piece by piece: a dot stands for itself and a star for
any number of dots (`Globs`). A directory is searched as its files with fitting
names are, one after the other (`searchFunctions_eq`).
-/

namespace CodeAtlas.Search

open Pattern Text List

variable {rest : Progress → Option Progress} {l : List String} {r : Progress} {session : Session}
  (name content : String)

/-! ### The pattern of a use -/

def separator : Pattern :=
  .alt (.anchor .textStart)
    (.alt (.char blankSet) (.alt (.char (.single '*')) (.char (.single '('))))

def writtenUse (word : List Char) : List Char :=
  ['(', '^', '|', '\\', 's', '|', '\\', '*', '|', '\\', '(', ')'] ++
    '(' :: (escapedChars word ++ [')', '\\', 's', '*', '\\', '('])

theorem usePattern_eq : usePattern name =
    .seq (.seq (.seq (.group 1 separator) (.group 2 (wordPattern name.toList)))
      blankRun) (.char (.single '(')) := by
  have htext : ("(^|\\s|\\*|\\()(" ++ Pattern.escape name ++ ")\\s*\\(").toList =
      writtenUse name.toList := by
    simp [Pattern.escape, escapedChars, writtenUse]
  generalize name.toList = word at htext ⊢
  obtain ⟨n, hn⟩ : ∃ n, 4 * (writtenUse word).length + 3 = word.length + (n + 12) := by
    have hle := length_le_escapedChars word
    have hlength : (writtenUse word).length = (escapedChars word).length + 19 := by
      simp [writtenUse]
    exact ⟨4 * (writtenUse word).length - (word.length + 9), by omega⟩
  rw [usePattern, Pattern.ofString, parse_of_sequence htext rfl]
  rw [hn]
  refine (sequence_step (n := word.length + (n + 10)) (i := .plain (.group 1 separator))
    (by decide) rfl (withRepetitions_none ?_ _)).trans ?_
  · exact noRepetition_paren (head?_escapedChars_ne word _)
  · exact (sequence_step (by decide) (item_word _ _)
      (withRepetitions_none (noRepetition_cons (by decide) _) _)).trans rfl

/-! ### Uses of a name -/

def CalledAt (word cs : List Char) (pos stop : Nat) : Prop :=
  ∃ blanks after, cs.drop pos = word ++ (blanks ++ '(' :: after) ∧
    (∀ c ∈ blanks, isBlank c = true) ∧ stop = pos + word.length + blanks.length + 1

def separates (c : Char) : Bool := isBlank c || c == '*' || c == '('

/-- Where a use of a name starts, where the name itself does, and where the use ends. -/
structure Use where
  start : Nat
  name : Nat
  stop : Nat

/-- The use of a word that is found at a position: right at the front of the text, or else behind a
character that separates. -/
inductive IsUse (word cs : List Char) : Nat → Use → Prop where
  | front {stop : Nat} (h : CalledAt word cs 0 stop) : IsUse word cs 0 ⟨0, 0, stop⟩
  | behind {pos stop : Nat} {c : Char} {after : List Char} (hc : cs.drop pos = c :: after)
      (hsep : separates c = true) (h : CalledAt word cs (pos + 1) stop)
      (hfront : pos = 0 → ∀ stop, ¬ CalledAt word cs 0 stop) :
      IsUse word cs pos ⟨pos, pos + 1, stop⟩

def lineAt (cs : List Char) (pos : Nat) : Nat := (cs.take pos).count '\n' + 1

section

variable {word cs : List Char} {pos : Nat} {captures : List Capture}

theorem CalledAt.bounds {stop : Nat} (h : CalledAt word cs pos stop) :
    pos < stop ∧ stop ≤ cs.length := by
  obtain ⟨blanks, after, hdrop, -, rfl⟩ := h
  have hlength := congrArg length hdrop
  simp only [length_drop, length_append, length_cons] at hlength
  omega

theorem IsUse.bounds {u : Use} (h : IsUse word cs pos u) : pos < u.stop ∧ u.stop ≤ cs.length := by
  cases h with
  | front h => exact h.bounds
  | behind _ _ h _ => exact ⟨Nat.lt_of_succ_lt h.bounds.1, h.bounds.2⟩

/-- The name stands on the line where its use starts, or on the next one if a line feed separates
it. -/
theorem IsUse.lineAt_name {u : Use} (h : IsUse word cs pos u) :
    lineAt cs u.name = lineAt cs u.start +
      if u.start < u.name ∧ cs[u.start]? = some '\n' then 1 else 0 := by
  cases h with
  | front => simp
  | @behind _ _ c after hdrop =>
    have hchar : cs[pos]? = some c := by rw [← head?_drop, hdrop, head?_cons]
    simp only [lineAt, take_add_one, hchar, Option.toList_some, count_append]
    by_cases hc : c = '\n' <;> simp [hc]

def followCall (word : List Char) (text : Array Char) : Progress → Option Progress :=
  (Pattern.group 2 (wordPattern word)).run text
    (blankRun.run text
      ((Pattern.char (.single '(')).run text some))

theorem followCall_eq : followCall word cs.toArray ⟨pos, captures⟩ =
    (dropStart? word (cs.drop pos)).bind fun _ =>
      (Pattern.char (.single '(')).run cs.toArray some
        ⟨pos + word.length + ((cs.drop (pos + word.length)).takeWhile isBlank).length,
          ⟨2, pos, pos + word.length⟩ :: captures⟩ := by
  have hword := run_pieces cs.toArray (fun c => Pattern.char (.single c)) word .empty
  have hempty : ∀ rest st, Pattern.empty.run cs.toArray rest st = rest st := fun _ _ => rfl
  rw [followCall, run_group, wordPattern, hword, hempty, run_word]
  congr 1
  funext _
  exact run_blanks (by decide)

theorem followCall_eq_some_iff :
    followCall word cs.toArray ⟨pos, captures⟩ = some r ↔
      ∃ stop, CalledAt word cs pos stop ∧ r = ⟨stop, ⟨2, pos, pos + word.length⟩ :: captures⟩ := by
  rw [followCall_eq]
  constructor
  · intro h
    obtain ⟨after, hafter, hrun⟩ := Option.bind_eq_some_iff.1 h
    have hsplit := eq_append_of_dropStart? hafter
    have hback : cs.drop (pos + word.length) = after := drop_add hsplit
    obtain ⟨c, rest, hdrop, hc, hr⟩ := exists_of_run_char hrun
    obtain rfl := (holds_single _ _).1 hc
    rw [← drop_drop, hback] at hdrop
    rw [hback] at hr
    refine ⟨_, ⟨after.takeWhile isBlank, rest, ?_, fun c hc => mem_takeWhile_imp hc, rfl⟩,
      (Option.some.inj hr).symm⟩
    have htake : after.takeWhile isBlank = _ := prefix_iff_eq_take.1 <| takeWhile_prefix isBlank
    have hwhole := (congrArg (· ++ after.drop _) htake).trans (take_append_drop _ after)
    rw [hsplit, ← hdrop, hwhole]
  · rintro ⟨stop, ⟨blanks, after, hdrop, hblanks, rfl⟩, rfl⟩
    have hback : cs.drop (pos + word.length) = blanks ++ '(' :: after := drop_add hdrop
    have hparen : cs.drop (pos + word.length + blanks.length) = '(' :: after := drop_add hback
    have htake : (blanks ++ '(' :: after).takeWhile isBlank = blanks := by
      refine takeWhile_append_stop hblanks fun c hc => ?_
      obtain rfl := Option.some.inj hc
      decide
    rw [hdrop, dropStart?_append, Option.bind_some, hback, htake, run_single_self hparen]

theorem run_separators_eq_some_iff :
    (Pattern.alt (.char blankSet) (.alt (.char (.single '*')) (.char (.single '(')))).run
        cs.toArray rest ⟨pos, captures⟩ = some r ↔
      ∃ c after, cs.drop pos = c :: after ∧ separates c = true ∧
        rest ⟨pos + 1, captures⟩ = some r := by
  rw [run_alt, run_alt]
  cases hdrop : cs.drop pos with
  | nil => simp [run_char_end hdrop]
  | cons c after =>
    have hholds : ∀ d : Char, (CharSet.single d).holds c = (c == d) := fun d =>
      Bool.eq_iff_iff.2 ((holds_single _ _).trans beq_iff_eq.symm)
    -- the three ways go on alike, so it does not matter which of them was taken
    have hone : ((if isBlank c then rest ⟨pos + 1, captures⟩ else none).or
        ((if c == '*' then rest ⟨pos + 1, captures⟩ else none).or
          (if c == '(' then rest ⟨pos + 1, captures⟩ else none))) =
        if separates c then rest ⟨pos + 1, captures⟩ else none := by
      rw [separates]
      cases isBlank c <;> cases c == '*' <;> cases c == '(' <;>
        cases rest ⟨pos + 1, captures⟩ <;> rfl
    rw [run_char hdrop, run_char hdrop, run_char hdrop, holds_blankSet, hholds, hholds, hone]
    by_cases hc : separates c = true <;> simp [hc]

theorem run_separator_eq_some_iff :
    separator.run cs.toArray rest ⟨pos, captures⟩ = some r ↔
      pos = 0 ∧ rest ⟨pos, captures⟩ = some r ∨
        (pos = 0 → rest ⟨pos, captures⟩ = none) ∧ ∃ c after, cs.drop pos = c :: after ∧
          separates c = true ∧ rest ⟨pos + 1, captures⟩ = some r := by
  have hstart : (Pattern.anchor .textStart).run cs.toArray rest ⟨pos, captures⟩ =
      if pos = 0 then rest ⟨pos, captures⟩ else none := by
    simp [run, Anchor.holds]
  rw [separator, run_alt, Option.or_eq_some_iff, run_separators_eq_some_iff, hstart]
  by_cases hpos : pos = 0 <;> simp [hpos]

def Use.toMatch (word cs : List Char) (u : Use) : Match :=
  ⟨cs.toArray, u.start, u.stop, [⟨2, u.name, u.name + word.length⟩, ⟨1, u.start, u.name⟩]⟩

theorem matchAt?_usePattern_iff {name : String} {m : Match} :
    (usePattern name).matchAt? cs.toArray pos false = some m ↔
      ∃ u, IsUse name.toList cs pos u ∧ u.toMatch name.toList cs = m := by
  have hmatch : (usePattern name).matchAt? cs.toArray pos false =
      (separator.run cs.toArray (fun st => followCall name.toList cs.toArray
        ⟨st.pos, ⟨1, pos, st.pos⟩ :: st.captures⟩) ⟨pos, []⟩).map fun st =>
          ⟨cs.toArray, pos, st.pos, st.captures⟩ := by
    rw [matchAt?_false, usePattern_eq]
    rfl
  rw [hmatch, Option.map_eq_some_iff]
  simp only [run_separator_eq_some_iff, followCall_eq_some_iff]
  constructor
  · rintro ⟨st, ⟨rfl, stop, hcall, rfl⟩ | ⟨hfront, c, after, hdrop, hc, stop, hcall, rfl⟩, rfl⟩
    · exact ⟨_, .front hcall, rfl⟩
    · refine ⟨_, .behind hdrop hc hcall fun hpos stop hstop => ?_, rfl⟩
      subst hpos
      cases (hfront rfl).symm.trans (followCall_eq_some_iff.2 ⟨stop, hstop, rfl⟩)
  · rintro ⟨u, hu, rfl⟩
    cases hu with
    | front hcall => exact ⟨_, .inl ⟨rfl, _, hcall, rfl⟩, rfl⟩
    | behind hdrop hc hcall hfront =>
      refine ⟨_, .inr ⟨fun hpos => ?_, _, _, hdrop, hc, _, hcall, rfl⟩, rfl⟩
      subst hpos
      refine Option.eq_none_iff_forall_ne_some.2 fun r hr => ?_
      obtain ⟨stop, hstop, -⟩ := followCall_eq_some_iff.1 hr
      exact hfront rfl stop hstop

end

def usesIn (name content : String) : List Use :=
  ((usePattern name).findAll content).map fun m => ⟨m.start, (m.groupStart? 2).getD 0, m.stop⟩

theorem leftmost_usesIn :
    Leftmost (IsUse name.toList content.toList) Use.stop 0 (usesIn name content) := by
  refine (leftmost_findAll (p := usePattern name) ?_).map ?_ ?_
  · intro pos m hm
    obtain ⟨u, hu, rfl⟩ := matchAt?_usePattern_iff.1 hm
    exact hu.bounds
  · intro pos m hm
    obtain ⟨u, hu, rfl⟩ := matchAt?_usePattern_iff.1 hm
    exact ⟨hu, rfl⟩
  · intro pos u hu
    exact ⟨_, matchAt?_usePattern_iff.2 ⟨u, hu, rfl⟩⟩

theorem useLines_eq :
    useLines name content = (usesIn name content).map fun u => lineAt content.toList u.start := by
  rw [usesIn, map_map]
  rfl

theorem run_searchFile (places : Places) {path content : String}
    (h : session.tree.readTextLoosely path = .ok content) :
    (searchFile places path).run.run session =
      (.ok (searchContent path content places), session) := by
  have hread : (do Run.lift ((← Run.tree).readTextLoosely path) : Run String).run.run session =
      (.ok content, session) := Run.run_lift_of_ok h session
  rw [searchFile, Run.run_bind_of_ok (Run.run_attempt hread (goesOn_ok content))]
  rfl

/-- Every use of a name in a file is reported once, in order, with the line where the use starts.
That is the line of the name, or the one before it if a line feed separates the name. -/
theorem searchFile_lines (places : Places) {path content : String} {session : Session}
    (h : session.tree.readTextLoosely path = .ok content) :
    ∃ uses : String → List Use,
      (∀ name, Leftmost (IsUse name.toList content.toList) Use.stop 0 (uses name)) ∧
      (searchFile places path).run.run session =
        (.ok (places.map fun (name, l) => (name, l ++ (uses name).map fun u =>
          path ++ ":" ++ toString (lineAt content.toList u.start))), session) ∧
      ∀ name, ∀ u ∈ uses name, lineAt content.toList u.name = lineAt content.toList u.start +
        if u.start < u.name ∧ content.toList[u.start]? = some '\n' then 1 else 0 := by
  refine ⟨fun name => usesIn name content, fun name => leftmost_usesIn name content, ?_, ?_⟩
  · rw [run_searchFile places h, searchContent]
    simp only [useLines_eq, map_map]
    rfl
  · intro name u hu
    obtain ⟨pos, huse⟩ := (leftmost_usesIn name content).found_of_mem hu
    exact huse.lineAt_name

/-- A session with a file that uses a name behind a line feed. -/
def lineFeedSession : Session where
  tree := (FileTree.empty "/w").addFile "a.c" (encodeUtf8 "\nf();")

theorem readTextLoosely_lineFeedSession :
    lineFeedSession.tree.readTextLoosely "a.c" = .ok "\nf();" := by
  have hisFile : lineFeedSession.tree.isFile "a.c" = true := by decide +kernel
  rw [FileTree.readTextLoosely, FileTree.readBytes, if_pos hisFile]
  apply congrArg Except.ok
  decide +kernel

theorem searchFile_lines_lineFeedSession :
    lineFeedSession.tree.readTextLoosely "a.c" = .ok "\nf();" ∧ ∃ uses : String → List Use,
      (∀ name, Leftmost (IsUse name.toList "\nf();".toList) Use.stop 0 (uses name)) ∧
      (searchFile [("f", [])] "a.c").run.run lineFeedSession =
        (.ok [("f", (uses "f").map fun u =>
          "a.c" ++ ":" ++ toString (lineAt "\nf();".toList u.start))], lineFeedSession) ∧
      ∀ name, ∀ u ∈ uses name, lineAt "\nf();".toList u.name = lineAt "\nf();".toList u.start +
        if u.start < u.name ∧ "\nf();".toList[u.start]? = some '\n' then 1 else 0 :=
  ⟨readTextLoosely_lineFeedSession, searchFile_lines [("f", [])] readTextLoosely_lineFeedSession⟩

/-- The only use of `f` begins on the second line, and the first one is reported. -/
theorem searchFile_reports_line_before :
    (searchFile [("f", [])] "a.c").run.run lineFeedSession =
        (.ok [("f", ["a.c:1"])], lineFeedSession) ∧
      "\nf();".toList.drop 1 = ['f', '(', ')', ';'] ∧ lineAt "\nf();".toList 1 = 2 := by
  refine ⟨?_, by decide, by decide⟩
  have hcontent : searchContent "a.c" "\nf();" [("f", [])] = [("f", ["a.c:1"])] := by
    decide +kernel
  rw [run_searchFile _ readTextLoosely_lineFeedSession, hcontent]

/-! ### File patterns -/

/-- A name as it is written with stars: each stands for any number of characters of a kind. -/
inductive Globs (star : Char → Prop) : List Char → List Char → Prop where
  | nil : Globs star [] []
  | char {c : Char} {written name : List Char} (hc : c ≠ '*') (h : Globs star written name) :
      Globs star (c :: written) (c :: name)
  | star {l written name : List Char} (hl : ∀ c ∈ l, star c) (h : Globs star written name) :
      Globs star ('*' :: written) (l ++ name)

/-- A character of a file pattern: a star, a dot or one that has no meaning of its own. -/
def IsGlobChar (c : Char) : Prop := c ∈ ['*', '.'] ∨ c ∉ metaChars

instance (c : Char) : Decidable (IsGlobChar c) := inferInstanceAs (Decidable (_ ∨ _))

theorem isGlobChar_of_all {cs : List Char} (h : cs.all (fun c => decide (IsGlobChar c)) = true) :
    ∀ c ∈ cs, IsGlobChar c := fun c hc => of_decide_eq_true (all_eq_true.1 h c hc)

def globWritten (c : Char) : List Char :=
  if c = '*' then ['\\', '.', '*'] else if c = '.' then ['\\', '.'] else [c]

theorem globWritten_ne_nil (c : Char) : globWritten c ≠ [] := by
  unfold globWritten
  split
  · exact cons_ne_nil _ _
  · split <;> exact cons_ne_nil _ _

def globPiece (c : Char) : Pattern :=
  if c = '*' then .rounds (.char (.single '.')) 0 none true else .char (.single c)

theorem piece_glob {c : Char} (h : IsGlobChar c) : Piece (globWritten c) (globPiece c) := by
  have hdot : WrittenChar '.' ['\\', '.'] := .escaped (by rw [specialChars_eq]; decide)
  by_cases hstar : c = '*'
  · rw [globWritten, globPiece, if_pos hstar, if_pos hstar]
    exact hdot.star_piece
  · rw [globWritten, globPiece, if_neg hstar, if_neg hstar]
    by_cases hc : c = '.'
    · rw [if_pos hc, hc]
      exact hdot.piece
    · rw [if_neg hc]
      refine (WrittenChar.plain (h.resolve_left ?_)).piece
      simp [hstar, hc]

def globPattern (written : List Char) : Pattern :=
  behindAll (written.foldl (fun p c => behindAll p (globPiece c)) (.anchor .textStart))
    (.anchor .textEnd)

theorem toList_replace_star_dot (written : String) :
    (replace (replace written "*" ".*") "." "\\.").toList = written.toList.flatMap globWritten := by
  rw [toList_replace (c := '.') rfl, toList_replace (c := '*') rfl, flatMap_assoc]
  congr 1
  funext c
  by_cases hstar : c = '*'
  · simp [globWritten, hstar]
  · by_cases hdot : c = '.'
    · simp [globWritten, hdot]
    · simp [globWritten, hstar, hdot, Ne.symm hstar, Ne.symm hdot]

theorem sequence_glob {cs : List Char} (h : ∀ c ∈ cs, IsGlobChar c) (n : Nat) :
    (sequence {} (cs.length + (n + 3)) .empty).run
        ⟨'^' :: (cs.flatMap globWritten ++ ['$']), 0, [], []⟩ =
      .ok (globPattern cs, ⟨[], 0, [], []⟩) := by
  have hpieces := fun c (hc : c ∈ cs) => piece_glob (h c hc)
  have hend : NoRepetition ['$'] := noRepetition_cons (by decide) []
  refine (sequence_step (n := cs.length + (n + 1)) (i := .condition (.anchor .textStart))
    (by decide) rfl (withRepetitions_none (noRepetition_pieces hpieces hend) _)).trans ?_
  refine (read_pieces (n := n + 1) hpieces hend).trans ?_
  exact (sequence_step (i := .condition (.anchor .textEnd)) (by decide) rfl
    (withRepetitions_none ⟨by simp, rfl⟩ _)).trans rfl

theorem filePattern_eq {written : String} (h : ∀ c ∈ written.toList, IsGlobChar c) :
    filePattern written = .ok (globPattern written.toList) := by
  have htext : ("^" ++ replace (replace written "*" ".*") "." "\\." ++ "$").toList =
      '^' :: (written.toList.flatMap globWritten ++ ['$']) := by
    rw [String.toList_append, String.toList_append, toList_replace_star_dot]
    rfl
  generalize written.toList = cs at h htext ⊢
  obtain ⟨n, hn⟩ : ∃ n, 4 * ('^' :: (cs.flatMap globWritten ++ ['$'])).length + 3 =
      cs.length + (n + 3) := by
    have hle := length_le_flatMap globWritten_ne_nil cs
    refine ⟨4 * (cs.flatMap globWritten).length + 8 - cs.length, ?_⟩
    rw [length_cons, length_append, length_singleton]
    omega
  have hparse := parse_of_sequence htext rfl (hn ▸ sequence_glob h n)
  -- rewriting with the definition itself would make Lean follow the reader
  delta filePattern
  dsimp only
  rw [hparse]

section

variable {star : Char → Prop} {written name cs : List Char}

theorem globs_nil_iff : Globs star [] name ↔ name = [] := by
  constructor
  · rintro ⟨⟩
    rfl
  · rintro rfl
    exact .nil

theorem globs_star_iff : Globs star ('*' :: written) name ↔
    ∃ l after, name = l ++ after ∧ (∀ c ∈ l, star c) ∧ Globs star written after := by
  constructor
  · intro h
    cases h with
    | char hc _ => exact absurd rfl hc
    | star hl h => exact ⟨_, _, rfl, hl, h⟩
  · rintro ⟨l, after, rfl, hl, h⟩
    exact .star hl h

theorem globs_cons_iff {c : Char} (hc : c ≠ '*') : Globs star (c :: written) name ↔
    ∃ after, name = c :: after ∧ Globs star written after := by
  constructor
  · intro h
    cases h with
    | char _ h => exact ⟨_, rfl, h⟩
    | star _ _ => exact absurd rfl hc
  · rintro ⟨after, rfl, h⟩
    exact .char hc h

theorem isSome_run_glob_iff (hcs : '\n' ∉ cs) (written : List Char) {pos : Nat}
    (hpos : pos ≤ cs.length) (captures : List Capture) :
    (written.foldr (fun c next => (globPiece c).run cs.toArray next)
        ((Pattern.anchor .textEnd).run cs.toArray some) ⟨pos, captures⟩).isSome ↔
      Globs (· = '.') written (cs.drop pos) := by
  induction written generalizing pos with
  | nil =>
    have hfeed : cs[pos]? ≠ some '\n' := fun h => hcs (mem_of_getElem? h)
    have hend : pos = cs.length ↔ cs.length ≤ pos := by omega
    rw [globs_nil_iff, drop_eq_nil_iff, ← hend, foldr_nil, run]
    simp [Anchor.holds, hfeed]
  | cons c written ih =>
    rw [foldr_cons, globPiece]
    by_cases hstar : c = '*'
    · rw [if_pos hstar, isSome_run_rounds_char_iff, hstar, globs_star_iff]
      refine exists₂_congr fun l after => and_congr_right fun hdrop => and_congr ?_ ?_
      · simp only [holds_single]
      · have hlength := congrArg length hdrop
        rw [length_drop, length_append] at hlength
        rw [ih (by omega), drop_add hdrop]
    · rw [if_neg hstar, globs_cons_iff hstar]
      cases hdrop : cs.drop pos with
      | nil => simp [run_char_end hdrop]
      | cons d after =>
        by_cases hd : d = c
        · have hlength := congrArg length hdrop
          rw [length_drop, length_cons] at hlength
          rw [hd] at hdrop ⊢
          rw [run_single_self hdrop, ih (by omega), drop_next hdrop]
          simp
        · simp [run_single_none hdrop hd, hd]

def fitsGlob (name written : String) : Bool :=
  ((globPattern written.toList).matchStart? name).isSome

theorem fitsGlob_iff {name : String} (hname : '\n' ∉ name.toList) (written : String) :
    fitsGlob name written = true ↔ Globs (· = '.') written.toList name.toList := by
  have hrun := isSome_run_glob_iff hname written.toList (Nat.zero_le _) []
  rw [drop_zero] at hrun
  rw [← hrun, fitsGlob, matchStart?, matchAt?_false, Option.isSome_map, globPattern, run_behindAll,
    run_pieces]
  rfl

end

theorem fitsPattern_eq {written : String} (h : ∀ c ∈ written.toList, IsGlobChar c) :
    fitsPattern name written = .ok (fitsGlob name written) := by
  rw [fitsPattern, filePattern_eq h]
  rfl

theorem fitsOne_eq (h : ∀ w ∈ l, ∀ c ∈ w.toList, IsGlobChar c) :
    fitsOne name l = .ok (l.any (fitsGlob name)) := by
  induction l with
  | nil => rfl
  | cons w l ih =>
    have hl := ih fun w' hw => h w' (mem_cons_of_mem w hw)
    rw [fitsOne, fitsPattern_eq _ (h w mem_cons_self), any_cons]
    change (if fitsGlob name w = true then _ else fitsOne name l) = _
    rw [hl]
    cases fitsGlob name w <;> rfl

/-- The files of a directory whose names pass a test, as they are met on the walk. -/
def filesNamed (t : FileTree) (dir : String) (test : String → Bool) : List String :=
  (t.walk dir).flatMap fun stop => (stop.files.filter test).map (Path.join stop.dir)

theorem foldlM_filter_map {α β γ : Type} (test : α → Bool) (f : α → β) (step : γ → β → Run γ)
    (l : List α) (a : γ) :
    l.foldlM (fun a x => if test x then step a (f x) else pure a) a =
      ((l.filter test).map f).foldlM step a := by
  induction l generalizing a with
  | nil => rfl
  | cons x l ih =>
    rw [foldlM_cons, filter_cons]
    cases test x <;> simp [ih]

theorem foldlM_flatMap {α β γ : Type} (f : α → List β) (step : γ → β → Run γ) (l : List α) (a : γ) :
    l.foldlM (fun a x => (f x).foldlM step a) a = (l.flatMap f).foldlM step a := by
  induction l generalizing a with
  | nil => rfl
  | cons x l ih => simp [ih]

theorem lift_fitsOne_bind {α : Type} (h : ∀ w ∈ l, ∀ c ∈ w.toList, IsGlobChar c)
    (next : Bool → Run α) :
    (Run.lift (fitsOne name l) >>= next) = next (l.any (fitsGlob name)) := by
  rw [fitsOne_eq _ h]
  rfl

theorem searchFunctions_eq {patterns path : String}
    (h : ∀ w ∈ split patterns ",", ∀ c ∈ w.toList, IsGlobChar c)
    (hdir : session.tree.isDir path = true) (hfile : session.tree.isFile path = false)
    (names : List String) :
    (searchFunctions names path patterns).run.run session =
      ((filesNamed session.tree path fun file =>
          (split patterns ",").any (fitsGlob file)).foldlM searchFile
        ((distinct names).map fun n => (n, []))).run.run session := by
  have hexists : (Run.pathExists path).run.run session = (.ok true, session) := by
    rw [Run.pathExists, Run.run_get_bind, FileTree.exists, hdir, Bool.or_true, Bool.true_or]
    rfl
  have hstep : ∀ dir : String, (fun (places : Places) (file : String) =>
      (Run.lift (fitsOne file (split patterns ",")) >>= fun fits =>
        if fits = true then searchFile places (Path.join dir file) else pure places)) =
      fun places file => if (split patterns ",").any (fitsGlob file) then
        searchFile places (Path.join dir file) else pure places := by
    intro dir
    funext places file
    exact lift_fitsOne_bind file h _
  rw [searchFunctions, Run.run_bind_of_ok hexists, if_neg (by decide), Run.run_tree_bind, hfile,
    if_neg Bool.false_ne_true]
  simp only [hstep, foldlM_filter_map, foldlM_flatMap, filesNamed]

/-- A file pattern stands for the names that are written like it, with dots in the place of its
stars. The files of a directory that are searched are those whose names one of the patterns, between
commas, stands for. -/
theorem fitsPattern_iff_globs {patterns : String} (h : ∀ c ∈ patterns.toList, IsGlobChar c) :
    (∀ name : String, '\n' ∉ name.toList → ∃ fits, fitsPattern name patterns = .ok fits ∧
        (fits = true ↔ Globs (· = '.') patterns.toList name.toList)) ∧
      ∃ fits : String → Bool,
        (∀ name : String, '\n' ∉ name.toList → (fits name = true ↔
          ∃ w ∈ split patterns ",", Globs (· = '.') w.toList name.toList)) ∧
        ∀ (session : Session) (path : String) (names : List String),
          session.tree.isDir path = true → session.tree.isFile path = false →
          (searchFunctions names path patterns).run.run session =
            ((filesNamed session.tree path fits).foldlM searchFile
              ((distinct names).map fun n => (n, []))).run.run session := by
  refine ⟨fun name hname => ⟨_, fitsPattern_eq name h, fitsGlob_iff hname patterns⟩,
    fun name => (split patterns ",").any (fitsGlob name), fun name hname => ?_,
    fun session path names hdir hfile => searchFunctions_eq (fun w hw c hc => ?_) hdir hfile names⟩
  · simp only [any_eq_true, fitsGlob_iff hname]
  · exact h c (mem_of_mem_split rfl hw hc)

theorem fitsPattern_iff_globs_dots :
    (∀ c ∈ "*.c".toList, IsGlobChar c) ∧ '\n' ∉ "..c".toList ∧
      lineFeedSession.tree.isDir "." = true ∧ lineFeedSession.tree.isFile "." = false ∧
      (∃ fits, fitsPattern "..c" "*.c" = .ok fits ∧
        (fits = true ↔ Globs (· = '.') "*.c".toList "..c".toList)) ∧
      ∃ fits : String → Bool,
        (fits "..c" = true ↔
          ∃ w ∈ split "*.c" ",", Globs (· = '.') w.toList "..c".toList) ∧
        (searchFunctions ["f"] "." "*.c").run.run lineFeedSession =
          ((filesNamed lineFeedSession.tree "." fits).foldlM searchFile
            ((distinct ["f"]).map fun n => (n, []))).run.run lineFeedSession := by
  have hchars : ∀ c ∈ "*.c".toList, IsGlobChar c := isGlobChar_of_all (by decide)
  have hname : '\n' ∉ "..c".toList := by decide
  have hdir : lineFeedSession.tree.isDir "." = true := by decide +kernel
  have hfile : lineFeedSession.tree.isFile "." = false := by decide +kernel
  obtain ⟨hone, fits, hfits, hsearch⟩ := fitsPattern_iff_globs hchars
  exact ⟨hchars, hname, hdir, hfile, hone "..c" hname, fits, hfits "..c" hname,
    hsearch lineFeedSession "." ["f"] hdir hfile⟩

/-- The pattern of all sources does not stand for `a.c`, and the file is not searched. -/
theorem fitsPattern_star_misses_name :
    fitsPattern "a.c" "*.c" = .ok false ∧
      Globs (fun _ => True) "*.c".toList "a.c".toList ∧
      (searchFunctions ["f"] "." defaultFilePatterns).run.run lineFeedSession =
        (.ok [("f", [])], lineFeedSession) := by
  refine ⟨?_, .star (l := ['a']) (fun _ _ => trivial)
    (.char (by decide) (.char (by decide) .nil)), ?_⟩
  · rw [fitsPattern_eq _ (isGlobChar_of_all (by decide))]
    exact congrArg Except.ok (by decide +kernel)
  · have hchars : ∀ c ∈ defaultFilePatterns.toList, IsGlobChar c :=
      isGlobChar_of_all (by decide +kernel)
    have hnone : filesNamed lineFeedSession.tree "." (fun file =>
        (split defaultFilePatterns ",").any (fitsGlob file)) = [] := by decide +kernel
    rw [searchFunctions_eq (fun w hw c hc => hchars c (mem_of_mem_split rfl hw hc))
      (by decide +kernel) (by decide +kernel), hnone]
    rfl

end CodeAtlas.Search
