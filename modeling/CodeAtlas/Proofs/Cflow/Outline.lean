import CodeAtlas.Proofs.Cflow.Line
import CodeAtlas.Proofs.Cflow.Reading
import CodeAtlas.Proofs.CallGraph

/-!
# Reading an outline back

A forest of functions is written as an outline and read as a call graph. The
functions of the graph are always the nodes of the forest. Its calls are those of
the forest if the returns of the outline go ever deeper, and with distinct names
only then (`parse_render`): an outline that returns twice to the same depth is
read with a call that nobody makes (`twoReturns_misread`).

Whatever the text is, the reader writes the two halves of a call together: the
line lists the function above it as a caller, and that function lists the line
as a call. The names on the stack have an entry already, so neither half is
lost (`Reading.step`). Every call then has its mirror image, and a graph in
which all calls have one knows both ends of them. `parse_mirrored` says so for
every text, also where the indents make no sense.
-/

namespace CodeAtlas.Cflow

open List Dict

variable {g : CallGraph} {state : CallGraph × Place}

/-! ### The graph after one line -/

def entryOf (g : CallGraph) (file : String) (e : Entry) (caller : String) : Function :=
  let known := (g.getFunction? e.name).getD { name := e.name }
  let f := { known with filePath := file, lineNumber := e.line }
  if caller = "" then f else f.addCaller caller

def withEntry (g : CallGraph) (file : String) (e : Entry) (caller : String) : CallGraph :=
  { g with functions := Dict.set g.functions e.name (entryOf g file e caller) }

section

variable (g) (file : String) (e : Entry) (caller : String)

theorem addEntry_eq :
    addEntry g file e caller =
      if caller = "" then withEntry g file e caller
      else (withEntry g file e caller).adjust caller (·.addCall e.name) := by
  unfold addEntry withEntry entryOf
  cases g.getFunction? e.name <;> by_cases hcaller : caller = "" <;> simp [hcaller]

theorem mem_calls_entryOf (c : String) :
    c ∈ (entryOf g file e caller).calls ↔ g.functions.Calls e.name c := by
  unfold entryOf CallGraph.getFunction? Functions.Calls
  cases g.functions.get? e.name <;> by_cases hcaller : caller = "" <;>
    simp [hcaller, Function.addCaller]

theorem mem_calledBy_entryOf (x : String) :
    x ∈ (entryOf g file e caller).calledBy ↔
      g.functions.CalledBy e.name x ∨ caller ≠ "" ∧ x = caller := by
  unfold entryOf CallGraph.getFunction? Functions.CalledBy
  cases g.functions.get? e.name <;> by_cases hcaller : caller = "" <;>
    simp [hcaller, Function.addCaller, mem_addNew]

theorem has_addEntry (key : String) :
    (addEntry g file e caller).functions.has key = true ↔
      key = e.name ∨ g.functions.has key = true := by
  rw [addEntry_eq, ← has_set g.functions e.name (entryOf g file e caller)]
  split
  · rfl
  · rw [CallGraph.adjust, has_adjust, withEntry]

theorem calls_addEntry (hcaller : caller = "" ∨ g.functions.has caller = true) (f c : String) :
    (addEntry g file e caller).functions.Calls f c ↔
      g.functions.Calls f c ∨ caller ≠ "" ∧ caller = f ∧ e.name = c := by
  have hset : (withEntry g file e caller).functions.Calls f c ↔ g.functions.Calls f c :=
    Functions.calls_set_of_calls (mem_calls_entryOf g file e caller) f c
  rw [addEntry_eq]
  by_cases hempty : caller = ""
  · rw [if_pos hempty, hset]
    simp [hempty]
  · have hhas : (withEntry g file e caller).functions.has caller = true :=
      (has_set _ _ _ _).2 (.inr (hcaller.resolve_left hempty))
    rw [if_neg hempty]
    refine (Functions.calls_adjust_addCall hhas ..).trans ?_
    rw [hset]
    simp [hempty, eq_comm]

theorem orderly_entryOf (hg : g.Unrepeated) :
    CallGraph.Orderly e.name (entryOf g file e caller) := by
  have hknown : CallGraph.Orderly e.name ((g.getFunction? e.name).getD { name := e.name }) := by
    cases hget : g.getFunction? e.name with
    | none => exact ⟨rfl, nodup_nil, nodup_nil⟩
    | some f => exact hg.orderly (e.name, f) (mem_of_get? hget)
  unfold entryOf
  split
  · exact hknown
  · exact ⟨hknown.1, hknown.2.1, nodup_addNew hknown.2.2 caller⟩

theorem unrepeated_addEntry (hg : g.Unrepeated) : (addEntry g file e caller).Unrepeated := by
  have hset : (withEntry g file e caller).Unrepeated :=
    ⟨nodup_keys_set hg.distinct _ _, hg.orderly.set (orderly_entryOf g file e caller hg),
      hg.missing⟩
  rw [addEntry_eq]
  split
  · exact hset
  · apply hset.adjust
    intro f hf
    exact ⟨hf.1, nodup_addNew hf.2.1 e.name, hf.2.2⟩

theorem calledBy_addEntry (c f : String) :
    (addEntry g file e caller).functions.CalledBy c f ↔
      g.functions.CalledBy c f ∨ caller ≠ "" ∧ caller = f ∧ e.name = c := by
  have hset : (withEntry g file e caller).functions.CalledBy c f ↔
      g.functions.CalledBy c f ∨ caller ≠ "" ∧ caller = f ∧ e.name = c := by
    by_cases hc : c = e.name
    · subst hc
      rw [Functions.CalledBy, withEntry, get?_set, if_pos rfl]
      simp [mem_calledBy_entryOf, eq_comm]
    · have hc' : ¬ e.name = c := fun h => hc h.symm
      rw [Functions.CalledBy, withEntry, get?_set, if_neg hc]
      simp [hc', Functions.CalledBy]
  rw [addEntry_eq, ← hset]
  split
  · rfl
  · have hcallers : ∀ entry : Function, (entry.addCall e.name).calledBy = entry.calledBy :=
      fun _ => rfl
    exact Functions.calledBy_adjust_of_eq _ caller hcallers c f

end

/-! ### The run over all lines -/

theorem mem_of_mem_close {indent : Int} {indents : List Int} {above : List String} {x : String}
    (h : x ∈ (Place.close indent indents above).2) : x ∈ above := by
  induction indents generalizing above with
  | nil => exact h
  | cons i rest ih =>
    rw [Place.close] at h
    split at h
    · exact mem_of_mem_tail (ih h)
    · exact h

theorem mem_of_mem_goTo {p : Place} {indent : Int} {x : String}
    (h : x ∈ (p.goTo indent).above) : x ∈ p.above := by
  rw [Place.goTo] at h
  split at h
  · exact h
  · split at h
    · exact mem_of_mem_close h
    · exact mem_of_mem_tail h

/-- What holds between two lines: all calls are mirrored, and the functions that are open have
their entries. -/
structure Reading (state : CallGraph × Place) : Prop where
  unrepeated : state.1.Unrepeated
  mirrored : ∀ f c, state.1.functions.Calls f c ↔ state.1.functions.CalledBy c f
  known : ∀ x ∈ state.2.above, state.1.functions.has x = true

theorem reading_start : Reading ({}, {}) where
  unrepeated := CallGraph.unrepeated_empty
  mirrored f c := by simp [Functions.Calls, Functions.CalledBy]
  known := by simp

theorem Reading.caller (h : Reading state) (indent : Int) :
    (state.2.goTo indent).above.headD "" = "" ∨
      state.1.functions.has ((state.2.goTo indent).above.headD "") = true := by
  cases habove : (state.2.goTo indent).above with
  | nil => exact .inl rfl
  | cons x above => exact .inr (h.known x (mem_of_mem_goTo (habove ▸ mem_cons_self)))

theorem Reading.step (h : Reading state) (file : String) (e : Entry) :
    Reading (step file state e) := by
  refine ⟨unrepeated_addEntry _ file e _ h.unrepeated, fun f c => ?_, fun x hx => ?_⟩
  · -- both halves grow by the same pair
    rw [Cflow.step, calls_addEntry _ _ _ _ (h.caller _), calledBy_addEntry, h.mirrored]
  · rw [Cflow.step, has_addEntry]
    exact (mem_cons.1 hx).imp_right fun hx => h.known x (mem_of_mem_goTo hx)

theorem Reading.foldl (h : Reading state) (file : String) (es : List Entry) :
    Reading (es.foldl (Cflow.step file) state) := by
  induction es generalizing state with
  | nil => exact h
  | cons e rest ih => exact ih (h.step file e)

theorem has_foldl_step (file : String) (state : CallGraph × Place) (es : List Entry)
    (key : String) :
    (es.foldl (step file) state).1.functions.has key = true ↔
      state.1.functions.has key = true ∨ ∃ e ∈ es, e.name = key := by
  induction es generalizing state with
  | nil => simp
  | cons e rest ih =>
    rw [foldl_cons, ih, step, has_addEntry]
    simp only [mem_cons, exists_eq_or_imp]
    rw [eq_comm (a := key), or_comm (a := e.name = key), or_assoc]

theorem mem_keys_parse (text file key : String) :
    key ∈ (parse text file).functions.keys ↔
      ∃ e ∈ (Text.lines text).filterMap entry?, e.name = key := by
  rw [mem_keys_iff, ← has_iff, parse, has_foldl_step]
  simp [Dict.has]

theorem Reading.calls_foldl {p : Place} (h : Reading (g, p)) (file : String) (rows : List Row)
    (f c : String) :
    ((rows.map Row.entry).foldl (Cflow.step file) (g, p)).1.functions.Calls f c ↔
      g.functions.Calls f c ∨ ∃ l ∈ noted p rows, l.1 ≠ "" ∧ l.1 = f ∧ l.2.name = c := by
  induction rows generalizing g p with
  | nil => simp [noted]
  | cons r rest ih =>
    have hstep : Cflow.step file (g, p) r.entry =
        (addEntry g file r.entry ((p.goTo r.entry.indent).above.headD ""), p.enter r) := rfl
    have hnext := ih (hstep ▸ h.step file r.entry)
    rw [map_cons, foldl_cons, hstep, hnext, calls_addEntry _ _ _ _ (h.caller _), noted, or_assoc]
    simp only [mem_cons, exists_eq_or_imp]
    rfl

/-! ### The rows of an outline -/

def Row.write (r : Row) : String := writeLine r.depth r.name r.line

namespace Outline

def name : Outline → String
  | .node name _ _ => name

def calls : Outline → List Outline
  | .node _ _ calls => calls

mutual

/-- The rows of an outline, from the top down. -/
def rows (depth : Nat) : Outline → List Row
  | .node name line calls => ⟨depth, name, line⟩ :: rowsOfAll (depth + 1) calls

/-- The rows of outlines, one after the other. -/
def rowsOfAll (depth : Nat) : List Outline → List Row
  | [] => []
  | o :: rest => o.rows depth ++ rowsOfAll depth rest

end

mutual

/-- An outline and all that stand below it. -/
def nodes : Outline → List Outline
  | .node name line calls => .node name line calls :: nodesOfAll calls

/-- Outlines and all that stand below them. -/
def nodesOfAll : List Outline → List Outline
  | [] => []
  | o :: rest => o.nodes ++ nodesOfAll rest

end

/-- Some node named `f` has a child named `c`. -/
def HasCall (os : List Outline) (f c : String) : Prop :=
  ∃ o ∈ nodesOfAll os, o.name = f ∧ ∃ child ∈ o.calls, child.name = c

mutual

theorem lines_eq (depth : Nat) : ∀ o : Outline, o.lines depth = (o.rows depth).map Row.write
  | .node name line calls => by
    rw [lines, rows, map_cons, linesOfAll_eq]
    rfl

theorem linesOfAll_eq (depth : Nat) :
    ∀ os : List Outline, linesOfAll depth os = (rowsOfAll depth os).map Row.write
  | [] => by rw [linesOfAll, rowsOfAll, map_nil]
  | o :: rest => by
    rw [linesOfAll, rowsOfAll, map_append, lines_eq, linesOfAll_eq]

end

mutual

theorem map_name_rows (depth : Nat) : ∀ o : Outline, (o.rows depth).map Row.name = o.nodes.map name
  | .node name line calls => by
    rw [rows, nodes, map_cons, map_cons, map_name_rowsOfAll]
    rfl

theorem map_name_rowsOfAll (depth : Nat) :
    ∀ os : List Outline, (rowsOfAll depth os).map Row.name = (nodesOfAll os).map name
  | [] => by rw [rowsOfAll, nodesOfAll, map_nil, map_nil]
  | o :: rest => by
    rw [rowsOfAll, nodesOfAll, map_append, map_append, map_name_rows, map_name_rowsOfAll]

end

mutual

def linked (caller : String) (depth : Nat) : Outline → List (String × Row)
  | .node name line calls => (caller, ⟨depth, name, line⟩) :: linkedAll name (depth + 1) calls

def linkedAll (caller : String) (depth : Nat) : List Outline → List (String × Row)
  | [] => []
  | o :: rest => o.linked caller depth ++ linkedAll caller depth rest

end

/-- From `path`, the rows lead to `path'` by the given links and keep what is above `depth`. -/
structure Passes (depth : Nat) (path path' : List String) (rs : List Row)
    (ls : List (String × Row)) : Prop where
  links : ∀ tail, links path (rs ++ tail) = ls ++ links path' tail
  nested : ∀ tail, Nested path'.length tail → Nested path.length (rs ++ tail)
  keeps : enclosing path' depth = enclosing path depth
  le : depth ≤ path'.length

theorem enclosing_of_enclosing_succ {path above : List String} {depth : Nat} {name : String}
    (hle : depth + 1 ≤ path.length) (h : enclosing path (depth + 1) = name :: above) :
    enclosing path depth = above := by
  have hsucc : path.length - depth = path.length - (depth + 1) + 1 := by omega
  rw [enclosing, hsucc, ← drop_drop]
  rw [enclosing] at h
  rw [h, drop_one, tail_cons]

mutual

theorem passes_rows (depth : Nat) (path : List String) (h : depth ≤ path.length) :
    ∀ o : Outline, ∃ path', Passes depth path path' (o.rows depth)
      (o.linked ((enclosing path depth).headD "") depth)
  | .node name line calls => by
    have hlength : (name :: enclosing path depth).length = depth + 1 :=
      length_path_enter (r := ⟨depth, name, line⟩) h
    obtain ⟨path', hcalls⟩ := passes_rowsOfAll (depth + 1) (name :: enclosing path depth)
      (Nat.le_of_eq hlength.symm) calls
    have hself : enclosing (name :: enclosing path depth) (depth + 1) =
        name :: enclosing path depth := hlength ▸ enclosing_self _
    rw [hself, headD_cons] at hcalls
    refine ⟨path', ?_, ?_, ?_, ?_⟩
    · intro tail
      rw [rows, linked, cons_append, links, hcalls.links, cons_append]
    · intro tail htail
      rw [rows, cons_append]
      refine ⟨h, ?_⟩
      have hnested := hcalls.nested tail htail
      rwa [hlength] at hnested
    · exact enclosing_of_enclosing_succ hcalls.le (hcalls.keeps.trans hself)
    · exact Nat.le_of_succ_le hcalls.le

theorem passes_rowsOfAll (depth : Nat) (path : List String) (h : depth ≤ path.length) :
    ∀ os : List Outline, ∃ path', Passes depth path path' (rowsOfAll depth os)
      (linkedAll ((enclosing path depth).headD "") depth os)
  | [] => ⟨path, fun _ => rfl, fun _ htail => htail, rfl, h⟩
  | o :: rest => by
    obtain ⟨path₁, ho⟩ := passes_rows depth path h o
    obtain ⟨path₂, hrest⟩ := passes_rowsOfAll depth path₁ ho.le rest
    rw [ho.keeps] at hrest
    refine ⟨path₂, ?_, ?_, hrest.keeps.trans ho.keeps, hrest.le⟩
    · intro tail
      rw [rowsOfAll, linkedAll, append_assoc, ho.links, hrest.links, append_assoc]
    · intro tail htail
      rw [rowsOfAll, append_assoc]
      exact ho.nested _ (hrest.nested _ htail)

end

theorem links_rowsOfAll (os : List Outline) : links [] (rowsOfAll 0 os) = linkedAll "" 0 os := by
  obtain ⟨path', h⟩ := passes_rowsOfAll 0 [] (Nat.le_refl 0) os
  have hlinks := h.links []
  rwa [append_nil, links, append_nil] at hlinks

theorem nested_rowsOfAll (os : List Outline) : Nested 0 (rowsOfAll 0 os) := by
  obtain ⟨path', h⟩ := passes_rowsOfAll 0 [] (Nat.le_refl 0) os
  have hnested := h.nested [] trivial
  rwa [append_nil] at hnested

mutual

theorem exists_linked_iff (caller : String) (depth : Nat) (f c : String) : ∀ o : Outline,
    (∃ l ∈ o.linked caller depth, l.1 = f ∧ l.2.name = c) ↔
      caller = f ∧ o.name = c ∨ ∃ n ∈ o.nodes, n.name = f ∧ ∃ child ∈ n.calls, child.name = c
  | .node name line calls => by
    have ih := exists_linkedAll_iff name (depth + 1) f c calls
    rw [linked, nodes]
    simp only [mem_cons, exists_eq_or_imp]
    rw [ih]
    rfl

theorem exists_linkedAll_iff (caller : String) (depth : Nat) (f c : String) : ∀ os : List Outline,
    (∃ l ∈ linkedAll caller depth os, l.1 = f ∧ l.2.name = c) ↔
      caller = f ∧ (∃ o ∈ os, o.name = c) ∨ HasCall os f c
  | [] => by simp [linkedAll, HasCall, nodesOfAll]
  | o :: rest => by
    have ho := exists_linked_iff caller depth f c o
    have hrest := exists_linkedAll_iff caller depth f c rest
    rw [linkedAll, HasCall, nodesOfAll]
    simp only [mem_append, mem_cons, or_and_right, exists_or, exists_eq_left]
    rw [ho, hrest, HasCall, and_or_left]
    exact or_or_or_comm

end

end Outline

/-! ### The text of an outline -/

open Outline

theorem entries_render {os : List Outline}
    (hnames : ∀ o ∈ nodesOfAll os, PlainName o.name) :
    (Text.lines (render os)).filterMap entry? = (rowsOfAll 0 os).map Row.entry := by
  have hplain : ∀ r ∈ rowsOfAll 0 os, PlainName r.name := by
    intro r hr
    have hmem : r.name ∈ (nodesOfAll os).map name := by
      rw [← map_name_rowsOfAll 0]
      exact mem_map_of_mem hr
    obtain ⟨o, ho, hname⟩ := mem_map.1 hmem
    exact hname ▸ hnames o ho
  have hlines : ∀ l ∈ (rowsOfAll 0 os).map Row.write, Text.IsLine l.toList := by
    intro l hl
    obtain ⟨r, hr, rfl⟩ := mem_map.1 hl
    exact isLine_writeLine (hplain r hr) _ _
  rw [render, linesOfAll_eq, Text.lines_join hlines, filterMap_map, ← filterMap_eq_map]
  apply filterMap_congr
  intro r hr
  rw [Function.comp_apply, Row.write, entry?_writeLine (hplain r hr)]
  rfl

/-- The returns of the outline of a forest go ever deeper. -/
def Deepening (os : List Outline) : Prop :=
  (returns 0 ((Outline.rowsOfAll 0 os).map Row.depth)).Pairwise (· < ·)

instance (os : List Outline) : Decidable (Deepening os) :=
  inferInstanceAs (Decidable
    ((returns 0 ((Outline.rowsOfAll 0 os).map Row.depth)).Pairwise (· < ·)))

theorem rising_iff_deepening (os : List Outline) :
    Rising 0 0 (Outline.rowsOfAll 0 os) ↔ Deepening os := by
  simp [Rising, Deepening]

section

variable {os : List Outline} (hnames : ∀ o ∈ nodesOfAll os, PlainName o.name)
  (file : String)

include hnames

theorem mem_keys_parse_render (key : String) :
    key ∈ (parse (render os) file).functions.keys ↔ ∃ o ∈ nodesOfAll os, o.name = key := by
  have hrows : (∃ e ∈ (rowsOfAll 0 os).map Row.entry, e.name = key) ↔
      key ∈ (rowsOfAll 0 os).map Row.name := by
    simp only [mem_map, exists_exists_and_eq_and]
    rfl
  rw [mem_keys_parse, entries_render hnames, hrows, map_name_rowsOfAll, mem_map]

theorem calls_parse_render (f c : String) :
    (parse (render os) file).functions.Calls f c ↔
      ∃ l ∈ noted {} (rowsOfAll 0 os), l.1 ≠ "" ∧ l.1 = f ∧ l.2.name = c := by
  rw [parse, entries_render hnames, reading_start.calls_foldl]
  simp [Functions.Calls]

omit file in
theorem hasCall_iff_links (f c : String) :
    HasCall os f c ↔ ∃ l ∈ links [] (rowsOfAll 0 os), l.1 ≠ "" ∧ l.1 = f ∧ l.2.name = c := by
  have hlinks := exists_linkedAll_iff "" 0 f c os
  rw [← links_rowsOfAll] at hlinks
  constructor
  · intro hcall
    have hne : f ≠ "" := by
      obtain ⟨o, ho, rfl, _⟩ := hcall
      exact (hnames o ho).ne_empty
    obtain ⟨l, hl, hcaller, hname⟩ := hlinks.2 (.inr hcall)
    exact ⟨l, hl, hcaller ▸ hne, hcaller, hname⟩
  · rintro ⟨l, hl, hne, hcaller, hname⟩
    rcases hlinks.1 ⟨l, hl, hcaller, hname⟩ with ⟨hempty, _⟩ | hcall
    · exact absurd (hcaller.trans hempty.symm) hne
    · exact hcall

theorem calls_of_deepening (h : Deepening os) (f c : String) :
    (parse (render os) file).functions.Calls f c ↔ HasCall os f c := by
  have hread : noted {} (rowsOfAll 0 os) = links [] (rowsOfAll 0 os) :=
    noted_eq_links aligned_start (nested_rowsOfAll os) ((rising_iff_deepening os).2 h)
  rw [calls_parse_render hnames, hread, hasCall_iff_links hnames]

theorem exists_calls_of_not_deepening (hnodup : ((nodesOfAll os).map name).Nodup)
    (h : ¬ Deepening os) :
    ∃ f c, (parse (render os) file).functions.Calls f c ∧ ¬ HasCall os f c := by
  have hrows := map_name_rowsOfAll 0 os
  have hne : ∀ x ∈ [] ++ (rowsOfAll 0 os).map Row.name, x ≠ "" := by
    rintro _ hx rfl
    rw [nil_append, hrows] at hx
    obtain ⟨o, ho, hempty⟩ := mem_map.1 hx
    exact (hnames o ho).ne_empty hempty
  obtain ⟨l, hl, hcaller, hlinks⟩ := exists_misplaced aligned_start (nested_rowsOfAll os)
    (fun hrising => h ((rising_iff_deepening os).1 hrising)) (by rwa [nil_append, hrows]) hne
  refine ⟨l.1, l.2.name, (calls_parse_render hnames file _ _).2 ⟨l, hl, hcaller, rfl, rfl⟩, ?_⟩
  intro hcall
  obtain ⟨l', hl', _, hcaller', hname⟩ := (hasCall_iff_links hnames _ _).1 hcall
  exact hlinks l' hl' hname hcaller'

end

/-- A forest is read back with the functions that it has. The calls are the same as well if the
returns go ever deeper, and for distinct names only then. -/
theorem parse_render (os : List Outline)
    (hnames : ∀ o ∈ Outline.nodesOfAll os, PlainName o.name) (file : String) :
    (parse (render os) file).functions.keys.Nodup ∧
      (∀ key, key ∈ (parse (render os) file).functions.keys ↔
        ∃ o ∈ Outline.nodesOfAll os, o.name = key) ∧
      (Deepening os → ∀ f c,
        (parse (render os) file).functions.Calls f c ↔ Outline.HasCall os f c) ∧
      (((Outline.nodesOfAll os).map Outline.name).Nodup →
        ((∀ f c, (parse (render os) file).functions.Calls f c ↔ Outline.HasCall os f c) ↔
          Deepening os)) := by
  refine ⟨?_, mem_keys_parse_render hnames file, calls_of_deepening hnames file, fun hnodup => ?_⟩
  · exact (reading_start.foldl file _).unrepeated.distinct
  · refine ⟨fun hsame => ?_, calls_of_deepening hnames file⟩
    by_contra hdeep
    obtain ⟨f, c, hcalls, hnot⟩ := exists_calls_of_not_deepening hnames file hnodup hdeep
    exact hnot ((hsame f c).1 hcalls)

/-- Two returns, the second one deeper; the function `log` is called twice. -/
def deeperReturns : List Outline :=
  [.node "main" 1 [.node "init" 2 [.node "log" 3 []],
    .node "run" 4 [.node "step" 5 [.node "halt" 6 []], .node "log" 7 []]]]

theorem parse_render_deeperReturns :
    (∀ o ∈ Outline.nodesOfAll deeperReturns, PlainName o.name) ∧ Deepening deeperReturns ∧
      ∀ f c, (parse (render deeperReturns) "").functions.Calls f c ↔
        Outline.HasCall deeperReturns f c := by
  have hnames : ∀ o ∈ Outline.nodesOfAll deeperReturns, PlainName o.name := by decide
  have hdeep : Deepening deeperReturns := by decide
  exact ⟨hnames, hdeep, (parse_render deeperReturns hnames "").2.2.1 hdeep⟩

def twoReturns : List Outline :=
  [.node "a" 1 [.node "b" 2 []], .node "c" 3 [.node "d" 4 []], .node "e" 5 []]

/-- The second return finds `c` still open and is read as a call by it. -/
theorem twoReturns_misread :
    (parse (render twoReturns) "").functions.Calls "c" "e" ∧
      ¬ Outline.HasCall twoReturns "c" "e" := by
  have hnames : ∀ o ∈ Outline.nodesOfAll twoReturns, PlainName o.name := by decide
  have hnoted : noted {} (Outline.rowsOfAll 0 twoReturns) =
      [("", ⟨0, "a", 1⟩), ("a", ⟨1, "b", 2⟩), ("", ⟨0, "c", 3⟩), ("c", ⟨1, "d", 4⟩),
        ("c", ⟨0, "e", 5⟩)] := by rfl
  have hlinks : links [] (Outline.rowsOfAll 0 twoReturns) =
      [("", ⟨0, "a", 1⟩), ("a", ⟨1, "b", 2⟩), ("", ⟨0, "c", 3⟩), ("c", ⟨1, "d", 4⟩),
        ("", ⟨0, "e", 5⟩)] := by rfl
  rw [calls_parse_render hnames, hasCall_iff_links hnames, hnoted, hlinks]
  simp

/-! ### The graph of any text -/

/-- The graph of a text has an entry for each line that names a function, without repetitions. All
that calls or is called has an entry, and what one side of a call lists, the other one lists. -/
theorem parse_mirrored (text file : String) :
    (parse text file).Unrepeated ∧
      (∀ key, key ∈ (parse text file).functions.keys ↔
        ∃ line ∈ Text.lines text, ∃ e, entry? line = some e ∧ e.name = key) ∧
      (∀ f c, (parse text file).functions.Calls f c → c ∈ (parse text file).functions.keys) ∧
      (∀ c f, (parse text file).functions.CalledBy c f → f ∈ (parse text file).functions.keys) ∧
      ∀ f c, (parse text file).functions.Calls f c ↔ (parse text file).functions.CalledBy c f := by
  have h : Reading (((Text.lines text).filterMap entry?).foldl (step file) ({}, {})) :=
    reading_start.foldl file _
  refine ⟨h.unrepeated, fun key => ?_, fun f c hcall => ?_, fun c f hcaller => ?_, h.mirrored⟩
  · simp only [mem_keys_parse, mem_filterMap]
    constructor
    · rintro ⟨e, ⟨line, hline, he⟩, hname⟩
      exact ⟨line, hline, e, he, hname⟩
    · rintro ⟨line, hline, e, he, hname⟩
      exact ⟨e, ⟨line, hline, he⟩, hname⟩
  · obtain ⟨entry, hentry, _⟩ := (h.mirrored f c).1 hcall
    exact Dict.mem_keys_of_get? hentry
  · exact ((h.mirrored f c).2 hcaller).mem_keys

end CodeAtlas.Cflow
