import CodeAtlas.CompileCommands.Database
import CodeAtlas.Proofs.FileTree
import CodeAtlas.Proofs.Json
import CodeAtlas.Proofs.Path
import CodeAtlas.Proofs.Session

/-!
# Databases read back

Writing a database lays out the words of each file as the compiler, the options,
`-c` and the path of the file; reading it drops the compiler and then word by
word what is not an option. A written database is loaded again with the entry
of every file (`load_of_create`), and the words of such an entry come down to
its options (`keepOptions_append`, `keepOptions_source`), as long as no option
looks like a flag for output or ends with the name of the file.

The `-c` is passed over together with the word behind it, unless it already
passes for the name of the file: for a file named `c` or `-c`, the path behind
it has to end with that name, too.

A search for a database goes up name by name, from the longest `Path.upTo` of
the directory to the shortest, which is its own directory; hence it ends there
whatever the bound on its steps (`upwards_upTo`).
-/

namespace CodeAtlas.CompilationDatabase

open Run List Text

variable {session session' : Session} {directory compiler : String} {options : List String}

/-! ### Writing -/

theorem textual_entriesFor (root directory compiler : String) (options files : List String) :
    (entriesFor root directory compiler options files).Textual := by
  refine .arr fun j hj => ?_
  obtain ⟨file, -, rfl⟩ := mem_map.1 hj
  have hwords (l : List String) : (Json.ofStrings l).Textual := by
    refine .arr fun j hj => ?_
    obtain ⟨s, -, rfl⟩ := mem_map.1 hj
    exact .str s
  refine .obj (by simp [Dict.keys]) ?_
  simp only [forall_mem_cons]
  exact ⟨.str _, .str _, hwords _, by simp⟩

theorem create_eq_true_iff {files : List String} :
    (create directory files compiler options).run.run session = (.ok true, session') ↔
      ∃ t, session.tree.writeText (Path.join directory "compile_commands.json")
          ((entriesFor session.tree.root directory compiler options files).render ⟨true, some 2⟩) =
            .ok t ∧
        session' = { session with tree := t } := by
  unfold create
  rw [run_tree_bind]
  dsimp only
  generalize (entriesFor session.tree.root directory compiler options files).render _ = text
  have hwrite := run_writeFile (Path.join directory "compile_commands.json") text session
  cases h : session.tree.writeText (Path.join directory "compile_commands.json") text with
  | ok t =>
    rw [h] at hwrite
    rw [run_bind_of_ok (run_attempt hwrite (goesOn_ok ()))]
    constructor
    · intro hrun
      exact ⟨t, rfl, (Prod.mk.inj hrun).2.symm⟩
    · rintro ⟨t', ht', rfl⟩
      cases ht'
      rfl
  | error e =>
    rw [h] at hwrite
    have hgoes : GoesOn (.error e : Except Fault Unit) :=
      goesOn_error fun n hn => session.tree.goesOn_writeText _ text n (hn ▸ h)
    rw [run_bind_of_ok (run_attempt hwrite hgoes)]
    constructor
    · intro hrun
      cases (Prod.mk.inj hrun).1
    · rintro ⟨t, ht, -⟩
      cases ht

theorem create_of_reach (session : Session) (directory p : String)
    (hdir : session.tree.isDir (Path.join directory "compile_commands.json") = false)
    (hreach : session.tree.reach? (Path.join directory "compile_commands.json") = some p)
    (hparent : session.tree.dirs.contains (Path.dirName p) = true) (files : List String)
    (compiler : String) (options : List String) :
    ∃ session', (create directory files compiler options).run.run session = (.ok true, session') :=
  ⟨_, create_eq_true_iff.2 ⟨_, FileTree.writeText_of_reach hdir hreach hparent _, rfl⟩⟩

/-! ### Loading -/

section

variable {root : String} (directory compiler : String) (options : List String)

theorem addEntry_entryFor (hroot : Path.isAbsolute root = true) (d : CompilationDatabase)
    (file : String) :
    d.addEntry (entryFor root directory compiler options file) =
      .ok { d with
        entries := Dict.set d.entries (Path.absolute root file)
          (entryFor root directory compiler options file) } := by
  have habsolute := Path.isAbsolute_absolute file hroot
  have hne : (Path.absolute root file).isEmpty = false := by
    rw [Bool.eq_false_iff]
    intro hempty
    rw [String.isEmpty_iff.1 hempty] at habsolute
    cases habsolute
  have hfile : (entryFor root directory compiler options file).getD "file" .null =
      .str (Path.absolute root file) := rfl
  rw [addEntry.eq_def]
  dsimp only [entryFor] at hfile ⊢
  rw [hfile]
  simp [Json.truthy, hne, Path.normalize_absolute]

def Holds (root directory compiler : String) (options : List String) (d : CompilationDatabase)
    (file : String) : Prop :=
  d.command? (Path.absolute root file) = some (entryFor root directory compiler options file)

theorem holds_set (d : CompilationDatabase) (file file' : String)
    (h : file' = file ∨ Holds root directory compiler options d file') :
    Holds root directory compiler options
      { d with
        entries := Dict.set d.entries (Path.absolute root file)
          (entryFor root directory compiler options file) } file' := by
  unfold Holds command? at h ⊢
  rw [Path.normalize_absolute] at h ⊢
  rw [Dict.get?_set]
  by_cases hsame : Path.absolute root file' = Path.absolute root file
  · -- An entry depends on its file through the absolute path alone.
    rw [if_pos hsame, entryFor, entryFor, hsame]
  · rw [if_neg hsame]
    exact h.resolve_left fun heq => hsame (heq ▸ rfl)

theorem addEntries_entriesFor (hroot : Path.isAbsolute root = true) (files : List String)
    (d : CompilationDatabase) :
    ∃ d', d.addEntries (files.map (entryFor root directory compiler options)) = (d', true) ∧
      ∀ file, file ∈ files ∨ Holds root directory compiler options d file →
        Holds root directory compiler options d' file := by
  induction files generalizing d with
  | nil => exact ⟨d, rfl, fun file h => h.resolve_left not_mem_nil⟩
  | cons first files ih =>
    obtain ⟨d', hadd, hholds⟩ := ih { d with
      entries := Dict.set d.entries (Path.absolute root first)
        (entryFor root directory compiler options first) }
    refine ⟨d', ?_, fun file h => hholds file ?_⟩
    · rw [map_cons, addEntries, addEntry_entryFor directory compiler options hroot]
      exact hadd
    · rw [mem_cons, or_assoc, or_left_comm] at h
      exact h.imp_right (holds_set directory compiler options d first file)

end

theorem not_endsWith_slash (directory : String) :
    endsWith (Path.join directory "compile_commands.json") "/" = false ∧
      endsWith (Path.join directory "compile_commands.json") "/." = false := by
  have hname := Path.endsWith_join directory "compile_commands.json"
  refine ⟨Bool.eq_false_iff.2 fun hslash => ?_, Bool.eq_false_iff.2 fun hdot => ?_⟩
  · exact absurd (endsWith_of_endsWith hslash hname (by decide)) (by decide)
  · exact absurd (endsWith_of_endsWith hdot hname (by decide)) (by decide)

theorem run_readDocument {path text : String} {j : Json}
    (hread : session.tree.readText path = .ok text) (hparse : Json.parse text = .ok j) :
    (CompileCommands.readDocument path).run.run session = (.ok j, session) := by
  unfold CompileCommands.readDocument
  rw [run_tree_bind, hread, run_bind_of_ok (show (lift (.ok text)).run.run session = _ from rfl)]
  simp only [hparse]
  rfl

theorem load_of_create {files : List String} (hroot : Path.isAbsolute session.tree.root = true)
    (hcreate : (create directory files compiler options).run.run session = (.ok true, session')) :
    ∃ d, (load {} (Path.join directory "compile_commands.json")).run.run session' =
        (.ok (d, true), session') ∧
      ∀ file ∈ files, Holds session.tree.root directory compiler options d file := by
  obtain ⟨t, hwrite, rfl⟩ := create_eq_true_iff.1 hcreate
  have htextual := textual_entriesFor session.tree.root directory compiler options files
  have hread : t.readText (Path.join directory "compile_commands.json") = .ok _ :=
    FileTree.readText_writeText hwrite (not_endsWith_slash directory).1
      (not_endsWith_slash directory).2 (Json.spells_renderAt _ htextual 0).no_return
  have hdocument :
      (CompileCommands.readDocument (Path.join directory "compile_commands.json")).run.run
        { session with tree := t } = (.ok _, { session with tree := t }) :=
    run_readDocument hread (Json.parse_render_textual _ htextual)
  obtain ⟨d, hadd, hholds⟩ := addEntries_entriesFor directory compiler options hroot files
    { commands := .arr (files.map (entryFor session.tree.root directory compiler options)) }
  refine ⟨d, ?_, fun file hfile => hholds file (.inl hfile)⟩
  unfold load
  rw [run_bind_of_ok (run_attempt hdocument (goesOn_ok _))]
  simp only [entriesFor, itemsOf, hadd]
  rfl

/-! ### Options -/

section

variable {file base : String}

theorem keepOptions_append (hfile : endsWith file base = true)
    (h : ∀ option ∈ options, startsWith option "-o" = false ∧
      startsWith option "-c" = false ∧ endsWith option base = false)
    {rest : List Json} {more : List String} (hrest : keepOptions file base false rest = .ok more) :
    keepOptions file base false (options.map .str ++ rest) = .ok (options ++ more) := by
  induction options with
  | nil => exact hrest
  | cons option options ih =>
    rw [forall_mem_cons] at h
    obtain ⟨⟨ho, hc, hbase⟩, h⟩ := h
    have hne : option ≠ file := by
      rintro rfl
      rw [hfile] at hbase
      cases hbase
    have hno : option ≠ "-o" := by
      rintro rfl
      cases ho
    have hnc : option ≠ "-c" := by
      rintro rfl
      cases hc
    rw [map_cons, cons_append, keepOptions, ih h]
    simp [hne, hno, hnc, ho, hc, hbase]

theorem keepOptions_source {path : String} (hfile : file ≠ "-c")
    (h : endsWith "-c" base = true → endsWith path base = true) :
    keepOptions file base false [.str "-c", .str path] = .ok [] := by
  by_cases hbase : endsWith "-c" base = true
  · -- Here the flag is taken for the file, and the word behind it is looked at by itself.
    simp [keepOptions, hbase, h hbase]
  · simp [keepOptions, hfile.symm, hbase]

end

theorem compilerOptions_of_holds {root : String} {d : CompilationDatabase} {file : String}
    (h : Holds root directory compiler options d file) :
    d.compilerOptions (Path.absolute root file) =
      keepOptions (Path.absolute root file) (Path.baseName (Path.absolute root file)) false
        (options.map .str ++
          [.str "-c", .str (Path.relative root (Path.absolute root file) directory)]) := by
  have hwords : wordsOf (entryFor root directory compiler options file) = .ok (.str compiler ::
      (options.map .str ++
        [.str "-c", .str (Path.relative root (Path.absolute root file) directory)])) := by
    simp [wordsOf, entryFor, Json.get?, lookup_cons, Json.ofStrings, itemsOf]
  unfold compilerOptions
  rw [h]
  dsimp only
  rw [hwords]
  rfl

theorem eq_of_endsWith_flag {base : String} (h : endsWith "-c" base = true) :
    base = "" ∨ base = "c" ∨ base = "-c" := by
  rw [endsWith_iff] at h
  have hlist : base.toList <:+ ['-', 'c'] := h
  simp only [suffix_cons_iff, suffix_nil] at hlist
  rcases hlist with hlist | hlist | hlist
  · exact .inr (.inr (String.toList_inj.1 hlist))
  · exact .inr (.inl (String.toList_inj.1 hlist))
  · exact .inl (String.toList_inj.1 hlist)

/-- A database that was written is loaded again, and every file has its entry and its options. -/
theorem compilerOptions_load_create {session session' : Session} {directory compiler : String}
    {files options : List String} (hroot : Path.isAbsolute session.tree.root = true)
    (hoptions : ∀ option ∈ options, startsWith option "-o" = false ∧
      startsWith option "-c" = false ∧ ∀ file ∈ files,
        endsWith option (Path.baseName (Path.absolute session.tree.root file)) = false)
    (hfiles : ∀ file ∈ files,
      Path.baseName (Path.absolute session.tree.root file) ∈ ["c", "-c"] →
        ¬ Path.names (Path.absolute session.tree.root file) <+:
          Path.names (Path.absolute session.tree.root directory))
    (hcreate : (create directory files compiler options).run.run session = (.ok true, session')) :
    ∃ d, (load {} (Path.join directory "compile_commands.json")).run.run session' =
        (.ok (d, true), session') ∧
      ∀ file ∈ files,
        d.compilerOptions (Path.absolute session.tree.root file) = .ok options ∧
          d.command? (Path.absolute session.tree.root file) =
            some (entryFor session.tree.root directory compiler options file) := by
  obtain ⟨d, hload, hholds⟩ := load_of_create hroot hcreate
  refine ⟨d, hload, fun file hfile => ⟨?_, hholds file hfile⟩⟩
  have habsolute := Path.absolute_absolute file hroot
  have hflag : Path.absolute session.tree.root file ≠ "-c" := by
    intro hflag
    have hrooted := Path.isAbsolute_absolute file hroot
    rw [hflag] at hrooted
    cases hrooted
  have hpath : endsWith "-c" (Path.baseName (Path.absolute session.tree.root file)) = true →
      endsWith
        (Path.relative session.tree.root (Path.absolute session.tree.root file) directory)
        (Path.baseName (Path.absolute session.tree.root file)) = true := by
    intro hbase
    rcases eq_of_endsWith_flag hbase with hbase | hbase
    · simp [hbase, endsWith_iff]
    · have hoff := hfiles file hfile (by simpa using hbase)
      rw [← habsolute] at hoff
      simpa only [habsolute] using Path.endsWith_relative hoff
  have hkeep := keepOptions_append (Path.endsWith_baseName _)
    (fun option ho => ⟨(hoptions option ho).1, (hoptions option ho).2.1,
      (hoptions option ho).2.2 file hfile⟩) (keepOptions_source hflag hpath)
  rw [compilerOptions_of_holds (hholds file hfile), hkeep, append_nil]

/-- A file may be named `c` as long as the directory does not lie below it. -/
theorem compilerOptions_load_create_named_c : ∃ session' d,
    (create "out" ["src/c", "src/../a.cpp"] "g++" ["-O2", "-I", "include"]).run.run
        { tree := { root := "/w", dirs := ["/w", "/w/out"] } } = (.ok true, session') ∧
      (load {} "out/compile_commands.json").run.run session' = (.ok (d, true), session') ∧
      d.compilerOptions "/w/src/c" = .ok ["-O2", "-I", "include"] ∧
      d.command? "/w/a.cpp" = some (.obj [("directory", .str "out"), ("file", .str "/w/a.cpp"),
        ("arguments", .ofStrings ["g++", "-O2", "-I", "include", "-c", "../a.cpp"])]) := by
  obtain ⟨session', hcreate⟩ := create_of_reach
    { tree := { root := "/w", dirs := ["/w", "/w/out"] } } "out" "/w/out/compile_commands.json"
    (by decide) (by decide) (by decide) ["src/c", "src/../a.cpp"] "g++" ["-O2", "-I", "include"]
  obtain ⟨d, hload, hd⟩ := compilerOptions_load_create (by decide) (by decide +kernel)
    (by decide +kernel) hcreate
  have hnamed : Path.absolute "/w" "src/c" = "/w/src/c" := by decide
  have hother : Path.absolute "/w" "src/../a.cpp" = "/w/a.cpp" := by decide
  have hrelative : Path.relative "/w" "/w/a.cpp" "out" = "../a.cpp" := by decide +kernel
  have hentry := (hd "src/../a.cpp" (by decide)).2
  simp only [entryFor, hother, hrelative] at hentry
  exact ⟨session', d, hcreate, hload, hnamed ▸ (hd "src/c" (by decide)).1, hentry⟩

/-- An option that ends with the name of a file is lost, also when the path given for the file ends
with another name. The path of a file named `c` is left over if the directory is that file. -/
theorem compilerOptions_lost_and_left_over :
    (∃ session' d,
      (create "out" ["d/."] "g++" ["-Dd"]).run.run
          { tree := { root := "/w", dirs := ["/w", "/w/out"] } } = (.ok true, session') ∧
        (load {} "out/compile_commands.json").run.run session' = (.ok (d, true), session') ∧
        Path.baseName "d/." ≠ "" ∧ endsWith "-Dd" (Path.baseName "d/.") = false ∧
        Path.absolute "/w" "d/." = "/w/d" ∧
        d.compilerOptions "/w/d" = .ok []) ∧
      ∃ session' d,
        (create "c" ["c"] "g++" []).run.run
            { tree := { root := "/w", dirs := ["/w", "/w/c"] } } = (.ok true, session') ∧
          (load {} "c/compile_commands.json").run.run session' = (.ok (d, true), session') ∧
          d.compilerOptions "/w/c" = .ok ["."] := by
  constructor
  · obtain ⟨session', hcreate⟩ := create_of_reach
      { tree := { root := "/w", dirs := ["/w", "/w/out"] } } "out" "/w/out/compile_commands.json"
      (by decide) (by decide) (by decide) ["d/."] "g++" ["-Dd"]
    obtain ⟨d, hload, hd⟩ := load_of_create (by decide) hcreate
    exact ⟨session', d, hcreate, hload, by decide, by decide, by decide,
      (compilerOptions_of_holds (hd "d/." (by decide))).trans rfl⟩
  · obtain ⟨session', hcreate⟩ := create_of_reach
      { tree := { root := "/w", dirs := ["/w", "/w/c"] } } "c" "/w/c/compile_commands.json"
      (by decide) (by decide) (by decide) ["c"] "g++" []
    obtain ⟨d, hload, hd⟩ := load_of_create (by decide) hcreate
    exact ⟨session', d, hcreate, hload, (compilerOptions_of_holds (hd "c" (by decide))).trans rfl⟩

/-! ### The nearest database -/

theorem upwards_upTo {p : String} {k : Nat} (hk : k ≤ (Path.names p).length) {bound : Nat}
    (hbound : k ≤ bound) :
    upwards bound (Path.upTo p k) = ((range (k + 1)).map (Path.upTo p)).reverse := by
  induction k generalizing bound with
  | zero =>
    cases bound with
    | zero => rfl
    | succ bound =>
      simp only [upwards, Path.dirName_upTo_zero, beq_self_eq_true, if_true]
      rfl
  | succ k ih =>
    obtain ⟨bound, rfl⟩ := Nat.exists_eq_add_of_le' hbound
    have hne : Path.upTo p k ≠ Path.upTo p (k + 1) := fun heq =>
      Nat.ne_of_lt (Path.size_upTo_lt hk) (congrArg size heq)
    rw [← Nat.add_assoc, upwards, Path.dirName_upTo_succ hk, if_neg (by simpa using hne),
      ih (Nat.le_of_succ_le hk) (Nat.le_add_left k bound), range_succ (n := k + 1)]
    simp

theorem upwards_normalize (p : String) {bound : Nat}
    (hbound : (Path.names (Path.normalize p)).length ≤ bound) :
    upwards bound (Path.normalize p) =
      ((range ((Path.names (Path.normalize p)).length + 1)).map
        (Path.upTo (Path.normalize p))).reverse := by
  have hup := upwards_upTo (Nat.le_refl _) hbound
  rwa [Path.upTo_normalize] at hup

theorem run_findM?_pathExists (session : Session) (places : List String) :
    (places.findM? pathExists).run.run session = (.ok (places.find? session.has), session) := by
  induction places with
  | nil => rfl
  | cons place rest ih =>
    have hplace : (pathExists place).run.run session = (.ok (session.has place), session) := rfl
    rw [findM?, run_bind_of_ok hplace, find?_cons]
    cases session.has place with
    | true => rfl
    | false => exact ih

theorem find?_reverse_range {there : String → Bool} (place : Nat → String) {n k : Nat}
    (hk : k ≤ n) (hthere : there (place k) = true)
    (hnear : ∀ j, k < j → j ≤ n → there (place j) = false) :
    (((range (n + 1)).map place).reverse).find? there = some (place k) := by
  induction n with
  | zero =>
    obtain rfl := Nat.le_zero.1 hk
    simp [hthere]
  | succ n ih =>
    rw [range_succ, map_append, reverse_append]
    rcases Nat.lt_or_eq_of_le hk with hlt | rfl
    · have hhere : there (place (n + 1)) = false := hnear (n + 1) hlt (Nat.le_refl _)
      have hrest := ih (Nat.le_of_lt_succ hlt) fun j hj hjn =>
        hnear j hj (Nat.le_succ_of_le hjn)
      simpa [hhere] using hrest
    · simp [hthere]

theorem run_find? (session : Session) (start : String) :
    (find? start).run.run session =
      (.ok ((((range ((Path.names (session.tree.locate start)).length + 1)).map fun k =>
          Path.join (Path.upTo (session.tree.locate start) k)
            "compile_commands.json").reverse.find? session.has).or
        ((["build", "Build", "BUILD", "out", "Out", "OUT"].map fun build =>
          Path.joinAll start [build, "compile_commands.json"]).find? session.has)), session) := by
  have hup := upwards_normalize _
    (Path.length_names_normalize_le (Path.join session.tree.root start))
  rw [← Path.absolute, ← FileTree.locate] at hup
  rw [find?, run_tree_bind]
  dsimp only
  rw [run_findM?_pathExists, hup, map_reverse, map_map, find?_append]
  simp only [Function.comp_def]

/-- The search looks from the directory up to the root, which it reaches whatever the bound on its
steps, and finds the nearest database; failing that, the first one in a build directory. -/
theorem find?_nearest (session : Session) (start : String) :
    ∃ dir n result, dir = session.tree.locate start ∧ n = (Path.names dir).length ∧
      (Path.upTo dir n = dir ∧
        (∀ k < n, Path.dirName (Path.upTo dir (k + 1)) = Path.upTo dir k) ∧
        Path.dirName (Path.upTo dir 0) = Path.upTo dir 0 ∧
        (Path.isAbsolute session.tree.root = true →
          Path.upTo dir 0 = "/" ∨ Path.upTo dir 0 = "//")) ∧
      (n ≤ size dir ∧ ∀ bound, n ≤ bound →
        upwards bound dir = ((range (n + 1)).map (Path.upTo dir)).reverse) ∧
      (find? start).run.run session = (.ok result, session) ∧
      (∀ k ≤ n, session.has (Path.join (Path.upTo dir k) "compile_commands.json") = true →
        (∀ j, k < j → j ≤ n →
          session.has (Path.join (Path.upTo dir j) "compile_commands.json") = false) →
        result = some (Path.join (Path.upTo dir k) "compile_commands.json")) ∧
      ((∀ k ≤ n, session.has (Path.join (Path.upTo dir k) "compile_commands.json") = false) →
        result = (["build", "Build", "BUILD", "out", "Out", "OUT"].map fun build =>
          Path.joinAll start [build, "compile_commands.json"]).find? session.has) := by
  refine ⟨session.tree.locate start, _, _, rfl, rfl,
    ⟨Path.upTo_normalize _, fun _ hk => Path.dirName_upTo_succ hk, Path.dirName_upTo_zero _,
      fun h => Path.upTo_absolute_zero start h⟩,
    ⟨Path.length_names_normalize_le _, fun _ => upwards_normalize _⟩, run_find? session start,
    fun k hk hthere hnear => ?_, fun hnone => ?_⟩
  · rw [find?_reverse_range (fun k => Path.join (Path.upTo (session.tree.locate start) k) _) hk
      hthere hnear, Option.some_or]
  · rw [find?_eq_none.2 fun path hpath => ?_, Option.none_or]
    obtain ⟨k, hk, rfl⟩ := mem_map.1 (mem_reverse.1 hpath)
    simp [hnone k (Nat.le_of_lt_succ (mem_range.1 hk))]

end CodeAtlas.CompilationDatabase
