import CodeAtlas.Proofs.Analysis.File

/-!
# Analysing what changed

The analysis of a directory joins the entries that a function has in several
files. The analysis of changed files lets a later entry replace an earlier one.
With a database that knows no file both read the same graphs, so they can be
compared entry by entry: what the one makes of a function is `combined` from all
its entries, and the other keeps the last of them. Names, their order and the
missing functions are the same.
-/

namespace CodeAtlas

open List Dict

variable {parts : List CallGraph} {session : Session} {entry : String × Function}
  (l : List (String × Function)) (g part : CallGraph)

namespace CallGraph

/-- The entries of a function in several graphs, in their order. -/
def entriesOf (parts : List CallGraph) (name : String) : List Function :=
  ((parts.flatMap (·.functions)).filter (·.1 == name)).map (·.2)

/-- Several entries of a function put into the first one. -/
def combined (combine : Function → Function → Function) : List Function → Option Function
  | [] => none
  | f :: rest => some (rest.foldl combine f)

theorem combined_concat (combine : Function → Function → Function) (l : List Function)
    (f : Function) :
    combined combine (l ++ [f]) = some (((combined combine l).map (combine · f)).getD f) := by
  cases l with
  | nil => rfl
  | cons g rest => simp [combined]

def latest (_ other : Function) : Function := other

theorem combined_latest (l : List Function) : combined latest l = l.getLast? := by
  induction l using reverseRecOn with
  | nil => rfl
  | append_singleton l f _ =>
    rw [combined_concat, getLast?_concat]
    cases combined latest l <;> rfl

section

variable {combine : Function → Function → Function}

def putEntry (combine : Function → Function → Function) (fs : Functions)
    (entry : String × Function) : Functions :=
  if fs.has entry.1 then Dict.adjust fs entry.1 (combine · entry.2)
  else Dict.set fs entry.2.name entry.2

theorem keys_putEntry (fs : Functions) (hentry : entry.2.name = entry.1) :
    (putEntry combine fs entry).keys = addNew fs.keys entry.1 := by
  have hmem : entry.1 ∈ fs.keys ↔ fs.has entry.1 = true := by
    rw [has_iff, mem_keys_iff]
  unfold putEntry addNew
  split
  · next hknown => simp [hmem.2 hknown]
  · next hnew => simp [keys_set, hentry, mt hmem.1 hnew]

theorem get?_putEntry (fs : Functions) (hentry : entry.2.name = entry.1) (name : String) :
    (putEntry combine fs entry).get? name =
      if name = entry.1 then some (((fs.get? name).map (combine · entry.2)).getD entry.2)
      else fs.get? name := by
  unfold putEntry
  split
  · next hknown =>
      obtain ⟨f, hf⟩ := (has_iff _ _).1 hknown
      rw [get?_adjust]
      by_cases hname : name = entry.1 <;> simp [hname, hf]
  · next hnew =>
      have hnone := (has_eq_false_iff _ _).1 (Bool.not_eq_true _ ▸ hnew)
      rw [get?_set, hentry]
      by_cases hname : name = entry.1 <;> simp [hname, hnone]

theorem keys_putEntries (hl : Dict.All (fun key f => f.name = key) l) (fs : Functions) :
    (l.foldl (putEntry combine) fs).keys = addAllNew fs.keys (l.map (·.1)) := by
  induction l generalizing fs with
  | nil => rfl
  | cons entry rest ih =>
    rw [foldl_cons, ih (fun e he => hl e (mem_cons_of_mem _ he)),
      keys_putEntry fs (hl entry mem_cons_self)]
    rfl

theorem get?_putEntries (hl : Dict.All (fun key f => f.name = key) l) (name : String) :
    Dict.get? (l.foldl (putEntry combine) []) name =
      combined combine ((l.filter (·.1 == name)).map (·.2)) := by
  induction l using reverseRecOn with
  | nil => rfl
  | append_singleton l entry ih =>
    have hrest := ih fun e he => hl e (mem_append_left _ he)
    rw [foldl_append, foldl_cons, foldl_nil,
      get?_putEntry _ (hl entry (by simp)), hrest, filter_append]
    by_cases hname : name = entry.1
    · simp [hname, combined_concat]
    · have hname' : ¬ entry.1 = name := fun h => hname h.symm
      simp [hname, hname']

theorem functions_putWith (entry : String × Function) :
    (putWith combine g entry).functions = putEntry combine g.functions entry := by
  unfold putWith putEntry
  split <;> rfl

theorem functions_mergeWith :
    (mergeWith combine g part).functions = part.functions.foldl (putEntry combine) g.functions := by
  rw [mergeWith, addMissing_foldl]
  generalize part.functions = l
  induction l generalizing g with
  | nil => rfl
  | cons entry rest ih => rw [foldl_cons, foldl_cons, ih, functions_putWith]

theorem missing_mergeWith :
    (mergeWith combine g part).missing = addAllNew g.missing part.missing := by
  rw [mergeWith, addMissing_foldl, missing_putAll]

theorem functions_foldl_mergeWith (parts : List CallGraph) :
    (parts.foldl (mergeWith combine) g).functions =
      (parts.flatMap (·.functions)).foldl (putEntry combine) g.functions := by
  induction parts generalizing g with
  | nil => rfl
  | cons part rest ih =>
    rw [foldl_cons, ih, functions_mergeWith, flatMap_cons, foldl_append]

theorem missing_foldl_mergeWith (parts : List CallGraph) :
    (parts.foldl (mergeWith combine) g).missing =
      addAllNew g.missing (parts.flatMap (·.missing)) := by
  induction parts generalizing g with
  | nil => rfl
  | cons part rest ih =>
    rw [foldl_cons, ih, missing_mergeWith, flatMap_cons, addAllNew_append]

end

def Named (g : CallGraph) : Prop := Dict.All (fun key f => f.name = key) g.functions

theorem named_flatMap (hparts : ∀ part ∈ parts, part.Named) :
    Dict.All (fun key f => f.name = key) (parts.flatMap (·.functions)) := by
  intro entry hentry
  obtain ⟨part, hpart, hmem⟩ := mem_flatMap.1 hentry
  exact hparts part hpart entry hmem

theorem overlay_eq_mergeWith {g part : CallGraph} (hg : g.functions.keys.Nodup)
    (hpart : part.Named) : overlay g part = mergeWith latest g part := by
  unfold overlay mergeWith
  dsimp only
  congr 1
  unfold Named at hpart
  generalize part.functions = l at hpart
  induction l generalizing g with
  | nil => rfl
  | cons entry rest ih =>
    have hname : entry.2.name = entry.1 := hpart entry mem_cons_self
    have hstep : g.addFunction entry.2 = putWith latest g entry := by
      unfold putWith
      split_ifs with hknown
      · show _ = { g with functions := Dict.adjust g.functions entry.1 fun _ => entry.2 }
        rw [adjust_const hg hknown, addFunction, hname]
      · rfl
    have hkeys : (g.addFunction entry.2).functions.keys.Nodup := nodup_keys_set hg _ _
    rw [foldl_cons, foldl_cons, ← hstep]
    exact ih hkeys fun e he => hpart e (mem_cons_of_mem _ he)

theorem foldl_overlay (hparts : ∀ part ∈ parts, part.Named) :
    parts.foldl overlay {} = parts.foldl (mergeWith latest) {} := by
  induction parts using reverseRecOn with
  | nil => rfl
  | append_singleton parts part ih =>
    have hbefore : ∀ p ∈ parts, p.Named := fun p hp => hparts p (mem_append_left _ hp)
    have hkeys : (parts.foldl (mergeWith latest) {}).functions.keys.Nodup := by
      rw [functions_foldl_mergeWith, keys_putEntries _ (named_flatMap hbefore)]
      exact nodup_addAllNew nodup_nil _
    rw [foldl_append, foldl_append, ih hbefore]
    exact overlay_eq_mergeWith hkeys (hparts part (by simp))

/-- Two graphs made of the same parts: in the one the entries of a function are joined, in the
other one the last entry is kept. -/
structure JoinedAndLast (parts : List CallGraph) (joined last : CallGraph) : Prop where
  keys_eq : last.functions.keys = joined.functions.keys
  missing_eq : last.missing = joined.missing
  joined_get? : ∀ name,
    joined.functions.get? name = combined Function.absorb (entriesOf parts name)
  last_get? : ∀ name, last.functions.get? name = (entriesOf parts name).getLast?
  nodup : joined.functions.keys.Nodup

theorem joinedAndLast_foldl (hparts : ∀ part ∈ parts, part.Named) :
    JoinedAndLast parts (parts.foldl absorb {}) (parts.foldl overlay {}) := by
  have hnamed := named_flatMap hparts
  rw [foldl_overlay hparts]
  refine ⟨?_, ?_, ?_, ?_, ?_⟩
  · show Dict.keys (parts.foldl (mergeWith latest) {}).functions =
      Dict.keys (parts.foldl (mergeWith Function.absorb) {}).functions
    rw [functions_foldl_mergeWith, functions_foldl_mergeWith, keys_putEntries _ hnamed,
      keys_putEntries _ hnamed]
  · show (parts.foldl (mergeWith latest) {}).missing =
      (parts.foldl (mergeWith Function.absorb) {}).missing
    rw [missing_foldl_mergeWith, missing_foldl_mergeWith]
  · intro name
    show Dict.get? (parts.foldl (mergeWith Function.absorb) {}).functions name = _
    rw [functions_foldl_mergeWith]
    exact get?_putEntries _ hnamed name
  · intro name
    rw [functions_foldl_mergeWith, ← combined_latest]
    exact get?_putEntries _ hnamed name
  · show (Dict.keys (parts.foldl (mergeWith Function.absorb) {}).functions).Nodup
    rw [functions_foldl_mergeWith, keys_putEntries _ hnamed]
    exact nodup_addAllNew nodup_nil _

/-- The two graphs are the same exactly if the last entry of every function already holds what all
its entries hold together. -/
theorem JoinedAndLast.eq_iff {joined last : CallGraph} (h : JoinedAndLast parts joined last) :
    last = joined ↔ ∀ name,
      (entriesOf parts name).getLast? = combined Function.absorb (entriesOf parts name) := by
  constructor
  · intro heq name
    rw [← h.last_get?, ← h.joined_get?, heq]
  · intro hentries
    have hfunctions : last.functions = joined.functions :=
      eq_of_get?_eq h.nodup h.keys_eq fun name => by
        rw [h.last_get?, h.joined_get?, hentries]
    have hmissing := h.missing_eq
    cases last
    cases joined
    simp_all

theorem combined_of_length_le_one {combine : Function → Function → Function} {l : List Function}
    (hl : l.length ≤ 1) : l.getLast? = combined combine l := by
  cases l with
  | nil => rfl
  | cons f rest =>
    have hrest : rest = [] := by simpa using hl
    rw [hrest]
    rfl

end CallGraph

/-! ### The two analyses -/

/-- The database can be reached, and no row of its next answer names a file. -/
structure Database.KnowsNoFile (d : Database) : Prop where
  reachable : d.refusal = none
  noFile : ∀ outcome rest, d.outcomes = outcome :: rest → ∃ rows, outcome = .rows rows ∧
    ∀ row ∈ rows, ∃ path, Dict.get? row "file_path" = some path ∧ path.truthy = false

namespace Analysis

open Run CallGraph

theorem run_query (hdatabase : session.database.KnowsNoFile) (text : String) (params : Dict Json) :
    ∃ rows s, (query text params).run.run session = (.ok rows, s) ∧ s.SameSources session ∧
      ∀ row ∈ rows, ∃ path, Dict.get? row "file_path" = some path ∧ path.truthy = false := by
  have hasked : ∃ rows s, (query? text params).run.run session = (.ok (some rows), s) ∧
      s.SameSources session ∧
      ∀ row ∈ rows, ∃ path, Dict.get? row "file_path" = some path ∧ path.truthy = false := by
    unfold query? request
    rw [run_modify_bind, run_get_bind]
    dsimp only
    cases houtcomes : session.database.outcomes with
    | nil => exact ⟨[], _, rfl, ⟨rfl, rfl, rfl⟩, by simp⟩
    | cons outcome rest =>
      obtain ⟨rows, rfl, hrows⟩ := hdatabase.noFile outcome rest houtcomes
      exact ⟨rows, _, rfl, ⟨rfl, rfl, rfl⟩, hrows⟩
  obtain ⟨rows, s, hrun, hs, hrows⟩ := hasked
  exact ⟨rows, s, run_bind_of_ok hrun, hs, hrows⟩

theorem answers_indexed {rows : List Row}
    (hrows : ∀ row ∈ rows, ∃ path, Dict.get? row "file_path" = some path ∧ path.truthy = false) :
    Answers session (rows.filterMapM fun row => do
      let path ← Row.column row "file_path"
      return if path.truthy then some path else none) (.ok []) := by
  induction rows with
  | nil => exact answers_pure []
  | cons row rest ih =>
    obtain ⟨path, hpath, hempty⟩ := hrows row mem_cons_self
    have hcolumn : Answers session (Row.column row "file_path") (.ok path) := by
      unfold Row.column
      rw [hpath]
      exact answers_pure path
    have hrow : Answers session (do
        let path ← Row.column row "file_path"
        return if path.truthy then some path else none) (.ok none) := by
      refine hcolumn.bind ?_
      rw [hempty]
      exact answers_pure none
    rw [filterMapM_cons]
    exact hrow.bind (ih fun r hr => hrows r (mem_cons_of_mem row hr))

theorem answers_allChanged (project : String) (files : List String) :
    Answers session (files.filterM fun file => do
      if ([] : List Json).contains (.str file) then hasChanged project file else return true)
      (.ok files) := by
  have haux : ∀ rest kept : List String, Answers session (filterAuxM (fun file => do
      if ([] : List Json).contains (.str file) then hasChanged project file else return true)
      rest kept) (.ok (rest.reverse ++ kept)) := by
    intro rest
    induction rest with
    | nil => exact fun kept => answers_pure kept
    | cons file rest ih =>
      intro kept
      have hrest := ih (file :: kept)
      rw [reverse_cons, append_assoc]
      exact (answers_pure true).bind hrest
  have hlast : Answers session (pure (files.reverse ++ []).reverse) (.ok files) := by
    rw [append_nil, reverse_reverse]
    exact answers_pure files
  exact (haux files []).bind hlast

theorem run_analyzeDirectory (session : Session) (dir : String) (suffixes : List String)
    (started : Bool) :
    ∃ s, (analyzeDirectory dir suffixes started).run.run session =
      (.ok ((fileGraphs session started (sourceFiles session.tree dir suffixes)).foldl
        CallGraph.absorb {}), s) := by
  let files := sourceFiles session.tree dir suffixes
  have htree : tree.run.run session = (.ok session.tree, session) := rfl
  obtain ⟨s₁, hsay, hs₁⟩ := answers_say s!"Found {files.length} files to analyze" session
    (.refl session)
  obtain ⟨s, hrun⟩ := run_analyzeFiles hs₁ files "files" started CallGraph.absorb
  refine ⟨s, ?_⟩
  unfold analyzeDirectory
  rw [run_bind_of_ok htree, run_bind_of_ok hsay, hrun]

theorem run_analyzeChanged (hdatabase : session.database.KnowsNoFile) (dir project : String)
    (suffixes : List String) (started : Bool) :
    ∃ s, (analyzeChanged dir project suffixes started).run.run session =
      (.ok ((fileGraphs session started (sourceFiles session.tree dir suffixes)).foldl
        CallGraph.overlay {}, sourceFiles session.tree dir suffixes), s) := by
  let files := sourceFiles session.tree dir suffixes
  have hconnect : connect.run.run session = (.ok (), session) := by
    unfold connect
    rw [run_get_bind, hdatabase.reachable]
    rfl
  obtain ⟨rows, s₁, hquery, hs₁, hrows⟩ :=
    run_query hdatabase indexedFilesQuery [("project", .str project)]
  obtain ⟨s₂, hindexed, hs₂⟩ := answers_indexed hrows s₁ hs₁
  obtain ⟨s₃, hchanged, hs₃⟩ := answers_allChanged project files s₂ hs₂
  obtain ⟨s₄, hsay, hs₄⟩ := answers_say
    s!"Found {files.length} changed files out of {files.length} total files" s₃ hs₃
  obtain ⟨s, hrun⟩ := run_analyzeFiles hs₄ files "changed files" started CallGraph.overlay
  refine ⟨s, ?_⟩
  have htree : tree.run.run session = (.ok session.tree, session) := rfl
  unfold analyzeChanged
  rw [run_bind_of_ok htree, run_bind_of_ok hconnect, run_bind_of_ok hquery, run_bind_of_ok hindexed,
    run_bind_of_ok hchanged, run_bind_of_ok hsay, run_bind_of_ok hrun]
  rfl

/-- If the database knows no file, both analyses succeed on the same graphs of files, and all files
count as changed. Whatever the order in which the graphs arrive, the one analysis joins the entries
of a function and the other one keeps the last of them; so they agree exactly if that one holds
what all hold together, and in particular if no two files have a function in common. -/
theorem analyzeChanged_keeps_last {session : Session} (hdatabase : session.database.KnowsNoFile)
    (dir project : String) (suffixes : List String) (started : Bool) :
    (∃ joined last s₁ s₂,
      (analyzeDirectory dir suffixes started).run.run session = (.ok joined, s₁) ∧
      (analyzeChanged dir project suffixes started).run.run session =
        (.ok (last, sourceFiles session.tree dir suffixes), s₂) ∧
      JoinedAndLast (fileGraphs session started (sourceFiles session.tree dir suffixes))
        joined last) ∧
    (∀ order s, ∃ joined last s₁ s₂,
      (collect "files" absorb
        (order.map fun file => (file, fileGraph session started file))).run.run s =
          (.ok joined, s₁) ∧
      (collect "changed files" overlay
        (order.map fun file => (file, fileGraph session started file))).run.run s = (.ok last, s₂) ∧
      JoinedAndLast (fileGraphs session started order) joined last) ∧
    ∀ parts joined last, JoinedAndLast parts joined last →
      (last = joined ↔ ∀ name,
        (entriesOf parts name).getLast? = combined Function.absorb (entriesOf parts name)) ∧
      ((∀ name, (entriesOf parts name).length ≤ 1) → last = joined) := by
  refine ⟨?_, ?_, ?_⟩
  · obtain ⟨s₁, hfull⟩ := run_analyzeDirectory session dir suffixes started
    obtain ⟨s₂, hchanged⟩ := run_analyzeChanged hdatabase dir project suffixes started
    exact ⟨_, _, s₁, s₂, hfull, hchanged, joinedAndLast_foldl fun _ => named_of_mem_fileGraphs⟩
  · intro order s
    have hreceived : received (order.map fun file => (file, fileGraph session started file)) =
        fileGraphs session started order := by
      rw [received, fileGraphs, filterMap_map]
      rfl
    obtain ⟨s₁, hjoined⟩ := run_collect "files" absorb
      (order.map fun file => (file, fileGraph session started file)) s
    obtain ⟨s₂, hlast⟩ := run_collect "changed files" overlay
      (order.map fun file => (file, fileGraph session started file)) s
    rw [hreceived] at hjoined hlast
    exact ⟨_, _, s₁, s₂, hjoined, hlast, joinedAndLast_foldl fun _ => named_of_mem_fileGraphs⟩
  · intro parts joined last h
    exact ⟨h.eq_iff, fun hlength => h.eq_iff.2 fun name => combined_of_length_le_one (hlength name)⟩

/-! A directory in which two files define the same function. -/

/-- Two files that define `f`, each with another call. -/
def twoVersions : Session where
  tree :=
    { root := "/w"
      files := [("/w/d/a.cpp", []), ("/w/d/e/b.cpp", [])]
      dirs := ["/w", "/w/d", "/w/d/e"] }
  trees :=
    [("d/a.cpp", .tree (Extraction.fileTree [Extraction.functionTree "f" ["g"]])),
      ("d/e/b.cpp", .tree (Extraction.fileTree [Extraction.functionTree "f" ["h"]]))]

theorem knowsNoFile_twoVersions : twoVersions.database.KnowsNoFile :=
  ⟨rfl, fun _ _ houtcomes => nomatch houtcomes⟩

theorem sorted_eq_self {l l' : List String} (h : l = l') (hl' : l'.length ≤ 1) :
    Text.sorted l = l' := by
  subst h
  cases l with
  | nil => exact mergeSort_nil
  | cons name rest =>
    have hrest : rest = [] := by simpa using hl'
    rw [hrest]
    exact mergeSort_singleton name

theorem sourceFiles_twoVersions :
    sourceFiles twoVersions.tree "d" [".cpp"] = ["d/a.cpp", "d/e/b.cpp"] := by
  let t := twoVersions.tree
  have hfiles : t.fileNames "d" = ["a.cpp"] := sorted_eq_self (by decide +kernel) (by decide)
  have hfiles' : t.fileNames "d/e" = ["b.cpp"] := sorted_eq_self (by decide +kernel) (by decide)
  have hdirs : t.dirNames "d" = ["e"] := sorted_eq_self (by decide +kernel) (by decide)
  have hdirs' : t.dirNames "d/e" = [] := sorted_eq_self (by decide +kernel) (by decide)
  have hdir : t.isDir "d" = true := by decide +kernel
  have hdir' : t.isDir "d/e" = true := by decide +kernel
  have hjoin : Path.join "d" "e" = "d/e" := by decide +kernel
  have hwalk : t.walk "d" = [⟨"d", ["e"], ["a.cpp"]⟩, ⟨"d/e", [], ["b.cpp"]⟩] := by
    show t.walkFrom id 4 "d" = _
    simp [FileTree.walkFrom, hdir, hdir', hdirs, hdirs', hfiles, hfiles', hjoin]
  unfold sourceFiles
  rw [hwalk]
  decide +kernel

theorem analyzeChanged_twoVersions :
    twoVersions.database.KnowsNoFile ∧ ∃ joined last s₁ s₂,
      (analyzeDirectory "d" [".cpp"] true).run.run twoVersions = (.ok joined, s₁) ∧
      (analyzeChanged "d" "default" [".cpp"] true).run.run twoVersions =
        (.ok (last, ["d/a.cpp", "d/e/b.cpp"]), s₂) ∧
      JoinedAndLast (fileGraphs twoVersions true ["d/a.cpp", "d/e/b.cpp"]) joined last := by
  have h := (analyzeChanged_keeps_last knowsNoFile_twoVersions "d" "default" [".cpp"] true).1
  rw [sourceFiles_twoVersions] at h
  exact ⟨knowsNoFile_twoVersions, h⟩

/-- Of the two calls of `f` the analysis of changed files keeps the one of the last file. -/
theorem twoVersions_disagree :
    ∃ joined last s₁ s₂ f f',
      (analyzeDirectory "d" [".cpp"] true).run.run twoVersions = (.ok joined, s₁) ∧
      (analyzeChanged "d" "default" [".cpp"] true).run.run twoVersions =
        (.ok (last, ["d/a.cpp", "d/e/b.cpp"]), s₂) ∧
      joined.functions.get? "f" = some f ∧ f.calls = ["g", "h"] ∧
      last.functions.get? "f" = some f' ∧ f'.calls = ["h"] ∧ last ≠ joined := by
  obtain ⟨s₁, hfull⟩ := run_analyzeDirectory twoVersions "d" [".cpp"] true
  obtain ⟨s₂, hchanged⟩ := run_analyzeChanged knowsNoFile_twoVersions "d" "default" [".cpp"] true
  rw [sourceFiles_twoVersions] at hfull hchanged
  let parts := fileGraphs twoVersions true ["d/a.cpp", "d/e/b.cpp"]
  have hjoined : ((parts.foldl absorb {}).functions.get? "f").map (·.calls) = some ["g", "h"] := by
    decide +kernel
  have hlast : ((parts.foldl overlay {}).functions.get? "f").map (·.calls) = some ["h"] := by
    decide +kernel
  obtain ⟨f, hf, hcalls⟩ := Option.map_eq_some_iff.1 hjoined
  obtain ⟨f', hf', hcalls'⟩ := Option.map_eq_some_iff.1 hlast
  refine ⟨_, _, s₁, s₂, f, f', hfull, hchanged, hf, hcalls, hf', hcalls', fun heq => ?_⟩
  rw [heq, hjoined] at hlast
  exact absurd hlast (by decide)

end Analysis

end CodeAtlas
