import CodeAtlas.Analysis.SharedGraphs
import CodeAtlas.Proofs.Analysis.Union

/-!
# Merging graphs that share functions

Graphs that are merged share their functions from then on, so a merge may change
what other graphs show. As long as the functions of the graphs still to come are
their own, a merge shows in its target what the merge of two plain graphs gives
(`view_merge`), and the graphs to come keep theirs.

The main result puts the two ways to join the graphs of files side by side: the
loop that takes graphs in as they arrive, and merging them one after the other.
Both give the union of the parts, in any order, and in the same order they give
the same lists.
-/

namespace CodeAtlas.SharedGraphs

open List Dict

variable {s s₁ : SharedGraphs} {named : List (String × CallGraph)} {target : String}
  {ahead : List Nat} {g : CallGraph}

def numbers (s : SharedGraphs) (name : String) : List Nat := (s.graph name).functions.values

theorem view_eq (s : SharedGraphs) (name : String) : s.view name =
    ⟨Dict.mapValues s.record (s.graph name).functions, (s.graph name).missing⟩ := rfl

theorem graph_set (s : SharedGraphs) (name : String) (g : NumberedGraph) (other : String) :
    graph { s with graphs := Dict.set s.graphs name g } other =
      if other = name then g else s.graph other := by
  unfold graph
  rw [get?_set]
  split <;> rfl

theorem record_adjustRecord {m : Nat} (hm : m < s.records.size) (change : Function → Function)
    (n : Nat) :
    (s.adjustRecord m change).record n = if n = m then change (s.record n) else s.record n := by
  unfold adjustRecord record
  rw [Array.getD_eq_getD_getElem?, Array.getD_eq_getD_getElem?, Array.getElem?_modify]
  by_cases hn : n = m
  · subst hn
    simp [hm]
  · simp [hn, Ne.symm hn]

theorem view_congr {s' : SharedGraphs} {name : String} (hgraph : s'.graph name = s.graph name)
    (hrecord : ∀ n ∈ s.numbers name, s'.record n = s.record n) : s'.view name = s.view name := by
  rw [view_eq, view_eq, hgraph, Dict.mapValues_congr hrecord]

/-- The functions of a graph, and those that are still to come, have numbers of their own. -/
structure Ready (s : SharedGraphs) (target : String) (ahead : List Nat) : Prop where
  keys : (s.graph target).functions.keys.Nodup
  nodup : (s.numbers target ++ ahead).Nodup
  lt : ∀ n ∈ s.numbers target ++ ahead, n < s.records.size

theorem Ready.sublist {ahead' : List Nat} (h : s.Ready target ahead) (hsub : ahead'.Sublist ahead) :
    s.Ready target ahead' where
  keys := h.keys
  nodup := h.nodup.sublist (hsub.append_left _)
  lt n hn := h.lt n ((hsub.append_left _).subset hn)

/-- A step towards the target shows in it as `g`, and leaves alone what is ahead. -/
structure Reaches (s s' : SharedGraphs) (target : String) (ahead : List Nat) (g : CallGraph) :
    Prop where
  view : s'.view target = g
  ready : s'.Ready target ahead
  record : ∀ n ∈ ahead, s'.record n = s.record n
  graph : ∀ name, name ≠ target → s'.graph name = s.graph name

theorem reaches_adjustRecord {key : String} {m : Nat} (h : s.Ready target ahead)
    (hm : (s.graph target).functions.get? key = some m) (change : Function → Function) :
    Reaches s (s.adjustRecord m change) target ahead ((s.view target).adjust key change) := by
  have hmem : (key, m) ∈ (s.graph target).functions := mem_of_get? hm
  have hnumber : m ∈ s.numbers target := mem_map_of_mem hmem
  have hlt : m < s.records.size := h.lt m (mem_append_left _ hnumber)
  -- within the graph, a number stands for one name
  have hiff : ∀ entry ∈ (s.graph target).functions, entry.2 = m ↔ entry.1 = key := by
    intro entry hentry
    constructor
    · intro hentry'
      have hnodup : ((s.graph target).functions.map (·.2)).Nodup := (nodup_append.1 h.nodup).1
      exact congrArg Prod.fst (inj_on_of_nodup_map hnodup hentry hmem hentry')
    · intro hkey
      have hget := (mem_iff_get? h.keys entry.1 entry.2).1 hentry
      rw [hkey, hm] at hget
      exact (Option.some.inj hget).symm
  refine ⟨?_, ⟨h.keys, h.nodup, ?_⟩, ?_, fun _ _ => rfl⟩
  · rw [view_eq, view_eq, CallGraph.adjust]
    congr 1
    unfold Dict.mapValues Dict.adjust
    rw [map_map]
    refine map_congr_left fun entry hentry => ?_
    rw [Function.comp, record_adjustRecord hlt]
    by_cases hkey : entry.1 = key
    · simp [hkey, (hiff entry hentry).2 hkey]
    · simp [hkey, mt (hiff entry hentry).1 hkey]
  · intro n hn
    rw [adjustRecord, Array.size_modify]
    exact h.lt n hn
  · intro n hn
    rw [record_adjustRecord hlt, if_neg]
    rintro rfl
    exact (nodup_append.1 h.nodup).2.2 n hnumber n hn rfl

theorem reaches_place {n : Nat} (h : s.Ready target (n :: ahead))
    (hnew : (s.graph target).functions.get? (s.record n).name = none) :
    Reaches s (s.place target n) target ahead ((s.view target).addFunction (s.record n)) := by
  have hgraph : (s.place target n).graph target =
      { s.graph target with
        functions := (s.graph target).functions ++ [((s.record n).name, n)] } := by
    rw [place, graph_set, if_pos rfl, set_of_get?_eq_none hnew]
  have hnumbers : (s.place target n).numbers target ++ ahead = s.numbers target ++ n :: ahead := by
    rw [numbers, hgraph, Dict.values, map_append, append_assoc]
    rfl
  refine ⟨?_, ⟨?_, ?_, ?_⟩, fun _ _ => rfl, ?_⟩
  · rw [view_eq, hgraph, view_eq, CallGraph.addFunction, set_of_get?_eq_none]
    · exact congrArg (CallGraph.mk · _) map_append
    · rw [get?_mapValues, hnew]
      rfl
  · rw [place, graph_set, if_pos rfl]
    exact nodup_keys_set h.keys _ _
  · rw [hnumbers]
    exact h.nodup
  · rw [hnumbers]
    exact h.lt
  · intro name hname
    rw [place, graph_set, if_neg hname]

theorem reaches_takeOver (entry : String × Nat) (h : s.Ready target (entry.2 :: ahead))
    (hname : (s.record entry.2).name = entry.1) :
    Reaches s (takeOver target s entry) target ahead
      (CallGraph.putWith Function.unite (s.view target) (entry.1, s.record entry.2)) := by
  have hhas : (s.view target).functions.has entry.1 = (s.graph target).functions.has entry.1 :=
    has_mapValues s.record _ _
  unfold takeOver CallGraph.putWith
  rw [hhas, Dict.has]
  cases hget : (s.graph target).functions.get? entry.1 with
  | some m => exact reaches_adjustRecord (h.sublist (sublist_cons_self ..)) hget _
  | none => exact reaches_place h (hname ▸ hget)

theorem Reaches.trans {s₂ : SharedGraphs} {ahead₁ : List Nat} {g₁ : CallGraph}
    (h₁ : Reaches s s₁ target ahead₁ g₁) (h₂ : Reaches s₁ s₂ target ahead g)
    (hsub : ahead ⊆ ahead₁) : Reaches s s₂ target ahead g where
  view := h₂.view
  ready := h₂.ready
  record n hn := (h₂.record n hn).trans (h₁.record n (hsub hn))
  graph name hname := (h₂.graph name hname).trans (h₁.graph name hname)

theorem reaches_takeOver_all (l : Dict Nat) (h : s.Ready target (l.values ++ ahead))
    (hnames : ∀ entry ∈ l, (s.record entry.2).name = entry.1) :
    Reaches s (l.foldl (takeOver target) s) target ahead
      ((Dict.mapValues s.record l).foldl (CallGraph.putWith Function.unite) (s.view target)) := by
  induction l generalizing s with
  | nil => exact ⟨rfl, h, fun _ _ => rfl, fun _ _ => rfl⟩
  | cons entry rest ih =>
    have hstep := reaches_takeOver entry h (hnames entry mem_cons_self)
    have hrecord : ∀ n ∈ Dict.values rest, (takeOver target s entry).record n = s.record n :=
      fun n hn => hstep.record n (mem_append_left _ hn)
    have hrest := ih hstep.ready fun e he => by
      rw [hrecord e.2 (mem_map_of_mem he)]
      exact hnames e (mem_cons_of_mem _ he)
    rw [Dict.mapValues_congr hrecord, hstep.view] at hrest
    exact hstep.trans hrest (subset_append_right _ _)

theorem reaches_setGraph (h : Reaches s s₁ target ahead g) {t : NumberedGraph}
    (ht : t.functions = (s₁.graph target).functions) :
    Reaches s { s₁ with graphs := Dict.set s₁.graphs target t } target ahead
      { g with missing := t.missing } := by
  have hgraph : graph { s₁ with graphs := Dict.set s₁.graphs target t } target = t := by
    rw [graph_set, if_pos rfl]
  have hnumbers : numbers { s₁ with graphs := Dict.set s₁.graphs target t } target =
      s₁.numbers target := by
    rw [numbers, hgraph, ht, numbers]
  refine ⟨?_, ⟨?_, ?_, ?_⟩, h.record, ?_⟩
  · rw [view_eq, hgraph, ht, ← h.view]
    rfl
  · rw [hgraph, ht]
    exact h.ready.keys
  · rw [hnumbers]
    exact h.ready.nodup
  · rw [hnumbers]
    exact h.ready.lt
  · intro name hname
    rw [graph_set, if_neg hname]
    exact h.graph name hname

theorem reaches_merge {source : String} (h : s.Ready target (s.numbers source ++ ahead))
    (hsource : source ≠ target)
    (hnames : ∀ entry ∈ (s.graph source).functions, (s.record entry.2).name = entry.1) :
    Reaches s (s.merge target source) target ahead ((s.view target).merge (s.view source)) := by
  have hall := reaches_takeOver_all (s.graph source).functions h hnames
  unfold merge
  extract_lets s₁ t t'
  have hmissing : t'.missing = addAllNew ((Dict.mapValues s.record (s.graph source).functions).foldl
      (CallGraph.putWith Function.unite) (s.view target)).missing (s.view source).missing := by
    rw [← hall.view]
    exact congrArg (addAllNew t.missing ·.missing) (hall.graph source hsource)
  have hset := reaches_setGraph hall (t := t') rfl
  rw [hmissing] at hset
  rw [CallGraph.merge, CallGraph.mergeWith, CallGraph.addMissing_foldl]
  exact hset

theorem view_foldl_merge (sources : List String) (h : s.Ready target (sources.flatMap s.numbers))
    (htarget : target ∉ sources)
    (hnames : ∀ source ∈ sources, ∀ entry ∈ (s.view source).functions, entry.2.name = entry.1) :
    (sources.foldl (·.merge target ·) s).view target =
      (sources.map s.view).foldl CallGraph.merge (s.view target) := by
  induction sources generalizing s with
  | nil => rfl
  | cons source rest ih =>
    rw [flatMap_cons] at h
    obtain ⟨hsource, hrest⟩ := not_or.1 (mt mem_cons.2 htarget)
    have hmerge := reaches_merge h (Ne.symm hsource) fun entry hentry =>
      hnames source mem_cons_self (entry.1, s.record entry.2) (mem_map_of_mem hentry)
    have hgraph : ∀ name ∈ rest, (s.merge target source).graph name = s.graph name :=
      fun name hname => hmerge.graph name fun heq => hrest (heq ▸ hname)
    have hview : ∀ name ∈ rest, (s.merge target source).view name = s.view name :=
      fun name hname => view_congr (hgraph name hname) fun n hn =>
        hmerge.record n (mem_flatMap.2 ⟨name, hname, hn⟩)
    have hnumbers : rest.flatMap (s.merge target source).numbers = rest.flatMap s.numbers :=
      flatMap_congr fun name hname => by rw [numbers, hgraph name hname, numbers]
    have hafter := ih (hnumbers ▸ hmerge.ready) hrest fun name hname => by
      rw [hview name hname]
      exact hnames name (mem_cons_of_mem _ hname)
    rw [foldl_cons, hafter, hmerge.view, map_congr_left hview]
    rfl

/-! ### Graphs with functions of their own -/

/-- Graphs by name, each with functions of its own. -/
def ofGraphs (named : List (String × CallGraph)) : SharedGraphs :=
  named.foldl (fun s entry => s.addGraph entry.1 entry.2) {}

/-- The graphs are there under their names, and their functions are numbered one after the other. -/
structure Holds (s : SharedGraphs) (named : List (String × CallGraph)) : Prop where
  view : ∀ entry ∈ named, s.view entry.1 = entry.2
  numbers : (named.map (·.1)).flatMap s.numbers = range s.records.size

theorem foldl_addEntry (l : List (String × Function)) (s : SharedGraphs) (fs : Dict Nat)
    (h : (fs.keys ++ l.map (·.1)).Nodup) :
    l.foldl addEntry (s, fs) =
      ({ s with records := s.records ++ (l.map (·.2)).toArray },
        fs ++ (l.map (·.1)).zip (range' s.records.size l.length)) := by
  induction l generalizing s fs with
  | nil => simp
  | cons entry rest ih =>
    have hnew : fs.get? entry.1 = none := by
      rw [Option.eq_none_iff_forall_ne_some]
      intro n hn
      exact disjoint_of_nodup_append h (mem_keys_of_get? hn) mem_cons_self
    have hstep : addEntry (s, fs) entry =
        ({ s with records := s.records.push entry.2 }, fs ++ [(entry.1, s.records.size)]) := by
      rw [addEntry, set_of_get?_eq_none]
      · rfl
      · exact hnew
    rw [foldl_cons, hstep, ih]
    · simp [range'_succ]
    · simpa [Dict.keys] using h

theorem addGraph_eq (s : SharedGraphs) (name : String) (hg : g.functions.keys.Nodup) :
    s.addGraph name g =
      { records := s.records ++ g.functions.values.toArray
        graphs := Dict.set s.graphs name
          { functions := g.functions.keys.zip (range' s.records.size g.functions.length)
            missing := g.missing } } := by
  unfold addGraph
  rw [foldl_addEntry g.functions s [] (by simpa [Dict.keys] using hg)]
  rfl

theorem record_append_of_lt {graphs : Dict NumberedGraph} (l : List Function) {n : Nat}
    (hn : n < s.records.size) : record ⟨s.records ++ l.toArray, graphs⟩ n = s.record n := by
  simp [record, Array.getD_eq_getD_getElem?, Array.getElem?_append_left hn]

theorem map_record_append (s : SharedGraphs) (graphs : Dict NumberedGraph) (l : List Function) :
    (range' s.records.size l.length).map (record ⟨s.records ++ l.toArray, graphs⟩) = l := by
  apply ext_getElem
  · simp
  · intro i h₁ h₂
    simp [record, Array.getD_eq_getD_getElem?, h₂]

theorem graph_addGraph_self (s : SharedGraphs) (name : String) (hg : g.functions.keys.Nodup) :
    (s.addGraph name g).graph name =
      { functions := g.functions.keys.zip (range' s.records.size g.functions.length)
        missing := g.missing } := by
  rw [addGraph_eq s name hg]
  exact (graph_set s name _ name).trans (if_pos rfl)

theorem graph_addGraph_of_ne (s : SharedGraphs) {name other : String} (hne : other ≠ name)
    (hg : g.functions.keys.Nodup) : (s.addGraph name g).graph other = s.graph other := by
  rw [addGraph_eq s name hg]
  exact (graph_set s name _ other).trans (if_neg hne)

theorem view_addGraph_self (s : SharedGraphs) (name : String) (hg : g.functions.keys.Nodup) :
    (s.addGraph name g).view name = g := by
  have hlength : g.functions.values.length = g.functions.length := length_map ..
  rw [view_eq, graph_addGraph_self s name hg, addGraph_eq s name hg, Dict.mapValues_zip, ← hlength,
    map_record_append, zip_keys_values]

theorem holds_addGraph (h : s.Holds named) {name : String} (hname : name ∉ named.map (·.1))
    (hg : g.functions.keys.Nodup) : (s.addGraph name g).Holds (named ++ [(name, g)]) := by
  have hother : ∀ other ∈ named.map (·.1), (s.addGraph name g).graph other = s.graph other := by
    intro other hmem
    refine graph_addGraph_of_ne s ?_ hg
    rintro rfl
    exact hname hmem
  constructor
  · intro entry hentry
    rcases mem_append.1 hentry with hentry | hentry
    · have hmem : entry.1 ∈ named.map (·.1) := mem_map_of_mem hentry
      rw [← h.view entry hentry]
      refine view_congr (hother entry.1 hmem) fun n hn => ?_
      have hlt : n < s.records.size := by
        rw [← mem_range, ← h.numbers]
        exact mem_flatMap.2 ⟨entry.1, hmem, hn⟩
      rw [addGraph_eq s name hg, record_append_of_lt _ hlt]
    · obtain rfl := mem_singleton.1 hentry
      exact view_addGraph_self s name hg
  · have hold : (named.map (·.1)).flatMap (s.addGraph name g).numbers =
        (named.map (·.1)).flatMap s.numbers :=
      flatMap_congr fun other hmem => by rw [numbers, hother other hmem, numbers]
    have hnew : (s.addGraph name g).numbers name = range' s.records.size g.functions.length := by
      rw [numbers, graph_addGraph_self s name hg]
      exact map_snd_zip (by simp [Dict.keys])
    have hsize : (s.addGraph name g).records.size = s.records.size + g.functions.length := by
      rw [addGraph_eq s name hg]
      simp [Dict.values]
    rw [map_append, flatMap_append, hold, h.numbers, map_singleton,
      flatMap_singleton, hnew, hsize, range_eq_range', range_eq_range']
    rw [← range'_append_1, Nat.zero_add]

theorem holds_ofGraphs (hnames : (named.map (·.1)).Nodup)
    (hkeys : ∀ entry ∈ named, entry.2.functions.keys.Nodup) : (ofGraphs named).Holds named := by
  unfold ofGraphs
  induction named using reverseRecOn with
  | nil => exact ⟨by simp, rfl⟩
  | append_singleton named entry ih =>
    rw [map_append, nodup_append] at hnames
    rw [foldl_append]
    refine holds_addGraph (ih hnames.1 fun e he => hkeys e (mem_append_left _ he)) ?_ ?_
    · intro hmem
      exact hnames.2.2 entry.1 hmem entry.1 mem_cons_self rfl
    · exact hkeys entry (mem_append_right _ mem_cons_self)

/-- Graphs of functions of their own, merged in any order into an empty one, show as plain graphs
merged in that order. -/
theorem view_merge_ofGraphs {stored : List (String × CallGraph)}
    (hstored : stored.Perm ((target, {}) :: named)) (hnames : (stored.map (·.1)).Nodup)
    (hnamed : ∀ entry ∈ named, entry.2.Unrepeated) :
    ((named.map (·.1)).foldl (·.merge target ·) (ofGraphs stored)).view target =
      (named.map (·.2)).foldl CallGraph.merge {} := by
  have hholds : (ofGraphs stored).Holds stored := by
    refine holds_ofGraphs hnames fun entry hentry => ?_
    rcases mem_cons.1 (hstored.mem_iff.1 hentry) with rfl | hentry
    · exact nodup_nil
    · exact (hnamed entry hentry).distinct
  have hview : ∀ entry ∈ (target, {}) :: named, (ofGraphs stored).view entry.1 = entry.2 :=
    fun entry hentry => hholds.view entry (hstored.mem_iff.2 hentry)
  have hnumbers : ((ofGraphs stored).numbers target ++
      (named.map (·.1)).flatMap (ofGraphs stored).numbers).Perm
        (range (ofGraphs stored).records.size) := by
    rw [← hholds.numbers]
    exact ((hstored.map (·.1)).flatMap_right _).symm
  have htarget : target ∉ named.map (·.1) := by
    have hnodup := (hstored.map (·.1)).nodup_iff.1 hnames
    exact (nodup_cons.1 hnodup).1
  have hready : (ofGraphs stored).Ready target
      ((named.map (·.1)).flatMap (ofGraphs stored).numbers) := by
    refine ⟨?_, hnumbers.nodup_iff.2 nodup_range, ?_⟩
    · have hkeys := congrArg (Dict.keys ·.functions) (hview (target, {}) mem_cons_self)
      rw [← keys_mapValues (ofGraphs stored).record]
      exact hkeys ▸ nodup_nil
    · intro n hn
      exact mem_range.1 (hnumbers.mem_iff.1 hn)
  rw [view_foldl_merge _ hready htarget, hview (target, {}) mem_cons_self, map_map]
  · congr 1
    exact map_congr_left fun entry hentry => hview entry (mem_cons_of_mem _ hentry)
  · intro source hsource entry hentry
    obtain ⟨part, hpart, rfl⟩ := mem_map.1 hsource
    rw [hview part (mem_cons_of_mem _ hpart)] at hentry
    exact ((hnamed part hpart).orderly entry hentry).1

end CodeAtlas.SharedGraphs

namespace CodeAtlas.Analysis

open SharedGraphs CallGraph

/-- In whatever order the graphs of files arrive, they are joined into the union of the parts. So
are graphs that share functions, when they are merged in that order, and then the lists that relate
functions are the same. -/
theorem merges_give_union {parts : List CallGraph} (hparts : ∀ part ∈ parts, part.Unrepeated)
    {arrivals : List (String × Except Fault CallGraph)} (harrivals : (received arrivals).Perm parts)
    {named stored : List (String × CallGraph)} {target : String}
    (hnamed : named.map (·.2) = received arrivals)
    (hstored : stored.Perm ((target, {}) :: named)) (hnames : (stored.map (·.1)).Nodup)
    (kind : String) (session : Session) :
    ∃ joined merged session',
      (collect kind CallGraph.absorb arrivals).run.run session = (.ok joined, session') ∧
      ((named.map (·.1)).foldl (·.merge target ·) (ofGraphs stored)).view target = merged ∧
      IsUnion parts joined ∧ IsUnion parts merged ∧ joined.relations = merged.relations := by
  have hreceived : ∀ part ∈ received arrivals, part.Unrepeated :=
    fun part hpart => hparts part (harrivals.mem_iff.1 hpart)
  have hunrepeated : ∀ entry ∈ named, entry.2.Unrepeated :=
    fun entry hentry => hreceived entry.2 (hnamed ▸ List.mem_map_of_mem hentry)
  obtain ⟨session', hcollect⟩ := run_collect kind CallGraph.absorb arrivals session
  refine ⟨_, _, session', hcollect, view_merge_ofGraphs hstored hnames hunrepeated, ?_, ?_, ?_⟩
  · exact (isUnion_foldl joinsCalls_absorb hreceived).perm harrivals
  · rw [hnamed]
    exact (isUnion_foldl joinsCalls_unite hreceived).perm harrivals
  · rw [hnamed]
    exact relations_foldl_absorb (received arrivals)

def countingFile : CallGraph where
  functions :=
    [("main", { name := "main", calls := ["count"] }),
     ("count", { name := "count", calledBy := ["main"] })]
  missing := ["exit"]

/-- A file with another version of the main function. -/
def printingFile : CallGraph where
  functions :=
    [("show", { name := "show", calledBy := ["main"] }),
     ("main", { name := "main", calls := ["show", "count"] })]
  missing := ["exit", "count"]

/-- The second file arrives first, and a file without a graph comes in between. -/
def printingFirst : List (String × Except Fault CallGraph) :=
  [("b.cpp", .ok printingFile), ("c.cpp", .error (.service "no tree")), ("a.cpp", .ok countingFile)]

theorem merges_give_union_printingFirst :
    ∃ joined merged session',
      (collect "files" CallGraph.absorb printingFirst).run.run { tree := { root := "/" } } =
        (.ok joined, session') ∧
      merged.relations =
        [("show", [], ["main"], [], []), ("main", ["show", "count"], [], [], []),
          ("count", [], ["main"], [], [])] ∧
      IsUnion [countingFile, printingFile] joined ∧ IsUnion [countingFile, printingFile] merged ∧
      joined.relations = merged.relations := by
  have hparts : ∀ part ∈ [countingFile, printingFile], part.Unrepeated := by
    intro part hpart
    rcases List.mem_pair.1 hpart with rfl | rfl <;> constructor <;> decide
  have harrivals : (received printingFirst).Perm [countingFile, printingFile] :=
    List.Perm.swap countingFile printingFile []
  have hstored : [("b", printingFile), ("all", {}), ("a", countingFile)].Perm
      [("all", {}), ("b", printingFile), ("a", countingFile)] :=
    List.Perm.swap ("all", {}) ("b", printingFile) [("a", countingFile)]
  obtain ⟨joined, merged, session', hjoined, hmerged, hunion⟩ :=
    merges_give_union hparts harrivals rfl hstored (by decide) "files" { tree := { root := "/" } }
  refine ⟨joined, merged, session', hjoined, ?_, hunion⟩
  rw [← hmerged]
  rfl

end CodeAtlas.Analysis
