import CodeAtlas.Proofs.Extraction.Looks

/-!
# What the search for calls writes

The search below a definition changes the table of functions while it goes, and
reads it to see which calls are there. All that it reads is the list of calls
of the caller, so the search is a function of that list and of the tree:
`searchNode a e` gives the calls, and the names whose entries are told about
the caller (`Edges.linked`). A reference to a member right before a call is
entered with the caller only. All other calls are told to the function called.

Which calls are found does not depend on that list either, only on the tree
(`mem_calls_searchNode`): they are the names that the nodes and their texts
mention. Who is told does, because a call that is found again among the nodes
of a level is not remembered, and is then looked for in the text.

`written_findCalls` says how the table is read after the search: the caller has
the calls, and a function that was there has the caller among its callers if it
was told. Nothing else changes. A function that was not there is not told.
-/

namespace CodeAtlas.Extraction

open List Dict

variable {fs start : Functions} {e : Edges} {s : Search} (info : NodeInfo) (next : Option Ast)

/-- The calls of a function. A name without an entry has none. -/
def callsOf (fs : Functions) (name : String) : List String :=
  ((fs.get? name).map (·.calls)).getD []

/-- The callers of a function. A name without an entry has none. -/
def callersOf (fs : Functions) (name : String) : List String :=
  ((fs.get? name).map (·.calledBy)).getD []

theorem callsOf_of_get? {name : String} {f : Function} (h : fs.get? name = some f) :
    callsOf fs name = f.calls := by
  simp [callsOf, h]

theorem callersOf_of_get? {name : String} {f : Function} (h : fs.get? name = some f) :
    callersOf fs name = f.calledBy := by
  simp [callersOf, h]

theorem has_of_mem_callsOf {name called : String} (h : called ∈ callsOf fs name) :
    fs.has name = true := by
  unfold callsOf at h
  rw [has_iff]
  cases hget : fs.get? name with
  | none => simp [hget] at h
  | some f => exact ⟨f, rfl⟩

theorem callsOf_eq_cores (fs : Functions) (name : String) :
    callsOf fs name = (((cores fs).get? name).map (·.calls)).getD [] := by
  rw [callsOf, get?_cores, Option.map_map]
  rfl

theorem callersOf_eq_cores (fs : Functions) (name : String) :
    callersOf fs name = (((cores fs).get? name).map (·.calledBy)).getD [] := by
  rw [callersOf, get?_cores, Option.map_map]
  rfl

theorem has_eq_cores (fs : Functions) (name : String) : fs.has name = (cores fs).has name :=
  (has_mapValues Function.core fs name).symm

theorem callsOf_adjust_addCall {caller : String} (hcaller : fs.has caller = true)
    (called name : String) :
    callsOf (Dict.adjust fs caller (·.addCall called)) name =
      if name = caller then addNew (callsOf fs caller) called else callsOf fs name := by
  obtain ⟨f, hf⟩ := (has_iff fs caller).1 hcaller
  unfold callsOf
  rw [get?_adjust]
  by_cases hname : name = caller
  · simp [hname, hf, Function.addCall]
  · simp [hname]

theorem callersOf_adjust_addCall (fs : Functions) (caller called name : String) :
    callersOf (Dict.adjust fs caller (·.addCall called)) name = callersOf fs name := by
  unfold callersOf
  rw [get?_adjust]
  split
  · rw [Option.map_map]
    rfl
  · rfl

theorem callsOf_recordCaller (fs : Functions) (caller called name : String) :
    callsOf (recordCaller fs caller called) name = callsOf fs name := by
  unfold callsOf recordCaller
  rw [get?_adjust]
  split
  · rw [Option.map_map]
    rfl
  · rfl

theorem mem_callersOf_recordCaller (fs : Functions) (caller called name x : String) :
    x ∈ callersOf (recordCaller fs caller called) name ↔
      x ∈ callersOf fs name ∨ x = caller ∧ name = called ∧ fs.has name = true := by
  unfold callersOf recordCaller
  rw [get?_adjust, has_iff]
  by_cases hname : name = called
  · cases hget : fs.get? name with
    | none => simp [hname]
    | some f => simp [hname, Function.addCaller, mem_addNew]
  · simp [hname]

/-- What is found of the calls of one function. -/
structure Edges where
  calls : List String
  linked : List String
deriving Repr, DecidableEq

namespace Edges

/-- A call that is entered with the caller only. -/
def call (e : Edges) (called : String) : Edges := { e with calls := addNew e.calls called }

/-- A call that is told to the function called. -/
def link (e : Edges) (called : String) : Edges :=
  { calls := addNew e.calls called, linked := called :: e.linked }

/-- The table `fs` is the table `start` with what was found of one caller. -/
structure Written (caller : String) (start : Functions) (e : Edges) (fs : Functions) : Prop where
  has_eq : ∀ name, fs.has name = start.has name
  /-- The caller has its calls, all others have theirs. -/
  calls_eq : ∀ name, callsOf fs name = if name = caller then e.calls else callsOf start name
  /-- The functions that are there and were told have a new caller. -/
  mem_callers : ∀ name x, x ∈ callersOf fs name ↔
    x ∈ callersOf start name ∨ x = caller ∧ name ∈ e.linked ∧ start.has name = true

theorem written_self (caller : String) (fs : Functions) :
    Written caller fs ⟨callsOf fs caller, []⟩ fs where
  has_eq _ := rfl
  calls_eq name := by
    by_cases hname : name = caller
    · simp [hname]
    · simp [hname]
  mem_callers name x := by simp

theorem Written.call {caller : String} (h : Written caller start e fs)
    (hcaller : start.has caller = true) (called : String) :
    Written caller start (e.call called) (Dict.adjust fs caller (·.addCall called)) where
  has_eq name := by rw [has_adjust, h.has_eq]
  calls_eq name := by
    have hknown : fs.has caller = true := by rw [h.has_eq, hcaller]
    rw [callsOf_adjust_addCall hknown, h.calls_eq, h.calls_eq, if_pos rfl]
    by_cases hname : name = caller
    · simp [hname, Edges.call]
    · simp [hname]
  mem_callers name x := by
    rw [callersOf_adjust_addCall]
    exact h.mem_callers name x

theorem Written.tell {caller : String} {called : String}
    (h : Written caller start (e.call called) fs) :
    Written caller start (e.link called) (recordCaller fs caller called) where
  has_eq name := by
    rw [recordCaller, has_adjust]
    exact h.has_eq name
  calls_eq name := by
    rw [callsOf_recordCaller]
    exact h.calls_eq name
  mem_callers name x := by
    rw [mem_callersOf_recordCaller, h.mem_callers, h.has_eq]
    simp only [link, mem_cons]
    tauto

theorem call_eq_self {called : String} (h : called ∈ e.calls) : e.call called = e := by
  rw [call, addNew_eq_self h]

end Edges

/-- The calls found so far, and those found among the nodes of one level. -/
structure Search where
  edges : Edges
  /-- The calls found among the nodes of the level. -/
  found : List String

/-- The calls of a level, with one that is remembered if it is new. -/
def Search.remember (s : Search) (called : String) : List String :=
  if s.edges.calls.contains called then s.found else addNew s.found called

/-- What a node itself says about calls. -/
def searchInfo (info : NodeInfo) (next : Option Ast) (s : Search) : Search :=
  match info.kind with
  | .call =>
    match info.referent with
    | some r => ⟨s.edges.link (calledName r), s.remember (calledName r)⟩
    | none => s
  | .memberRef =>
    match memberCall? info next with
    | some called => ⟨s.edges.call called, s.remember called⟩
    | none => s
  | _ => s

/-- What a text says about calls that were not found among the nodes. -/
def searchText (found : List String) (e : Edges) (called : String) : Edges :=
  if found.contains called then e else e.link called

mutual

/-- The calls below a node and in its text. -/
def searchNode : Ast → Edges → Edges
  | .node info children, e =>
    let s := searchAmong children ⟨e, []⟩
    (callsInText info.text).foldl (searchText s.found) s.edges

/-- The calls of nodes of one level and below them. -/
def searchAmong : List Ast → Search → Search
  | [], s => s
  | a :: rest, s =>
    let s := searchInfo a.info rest.head? s
    searchAmong rest { s with edges := searchNode a s.edges }

end

section

variable {caller : String} (hcaller : start.has caller = true)
include hcaller

theorem isRecorded_of_written (h : e.Written caller start fs) (called : String) :
    isRecorded fs caller called = e.calls.contains called := by
  have hknown : fs.has caller = true := by rw [h.has_eq, hcaller]
  obtain ⟨f, hf⟩ := (has_iff fs caller).1 hknown
  have hcalls : f.calls = e.calls := by
    rw [← callsOf_of_get? hf, h.calls_eq, if_pos rfl]
  simp [isRecorded, hf, hcalls]

/-- The two sides of a search: the table with what it shows, and what is remembered. -/
structure Agrees (caller : String) (start : Functions) (s : Search) (t : Findings) : Prop where
  written : s.edges.Written caller start t.functions
  found_eq : t.found = s.found

theorem agrees_addCall {t : Findings} (h : Agrees caller start s t) (called : String) :
    Agrees caller start ⟨s.edges.call called, s.remember called⟩ (t.addCall caller called) := by
  unfold Findings.addCall Search.remember
  rw [isRecorded_of_written hcaller h.written]
  by_cases hold : called ∈ s.edges.calls
  · rw [if_pos (by simpa using hold), if_pos (by simpa using hold), Edges.call_eq_self hold]
    exact h
  · rw [if_neg (by simpa using hold), if_neg (by simpa using hold), ← h.found_eq]
    exact ⟨h.written.call hcaller called, rfl⟩

theorem agrees_noteNode {t : Findings} (h : Agrees caller start s t) :
    Agrees caller start (searchInfo info next s) (noteNode caller info next t) := by
  unfold searchInfo noteNode
  cases info.kind with
  | call =>
    cases info.referent with
    | none => exact h
    | some r =>
      have hcall := agrees_addCall hcaller h (calledName r)
      exact ⟨hcall.written.tell, hcall.found_eq⟩
  | memberRef =>
    cases memberCall? info next with
    | none => exact h
    | some called => exact agrees_addCall hcaller h called
  | _ => exact h

theorem written_noteText (found : List String) (h : e.Written caller start fs) (called : String) :
    (searchText found e called).Written caller start (noteText caller found fs called) := by
  unfold searchText noteText
  split
  · exact h
  · exact (h.call hcaller called).tell

theorem written_foldl_noteText (found : List String) (h : e.Written caller start fs)
    (l : List String) :
    (l.foldl (searchText found) e).Written caller start (l.foldl (noteText caller found) fs) := by
  induction l generalizing e fs with
  | nil => exact h
  | cons called rest ih => exact ih (written_noteText hcaller found h called)

mutual

theorem written_searchNode : ∀ (a : Ast) {e : Edges} {fs : Functions}, e.Written caller start fs →
    (searchNode a e).Written caller start (findCalls caller a fs)
  | .node info children, e, fs, h => by
    have hlevel := agrees_searchAmong children
      (show Agrees caller start ⟨e, []⟩ ⟨fs, []⟩ from ⟨h, rfl⟩)
    rw [searchNode, findCalls, hlevel.found_eq]
    exact written_foldl_noteText hcaller _ hlevel.written _

theorem agrees_searchAmong : ∀ (l : List Ast) {s : Search} {t : Findings}, Agrees caller start s t →
    Agrees caller start (searchAmong l s) (findCallsAmong caller l t)
  | [], _, _, h => h
  | a :: rest, s, t, h => by
    have hnode := agrees_noteNode a.info rest.head? hcaller h
    rw [searchAmong, findCallsAmong]
    exact agrees_searchAmong rest ⟨written_searchNode a hnode.written, hnode.found_eq⟩

end

omit hcaller in
theorem written_findCalls (hcaller : fs.has caller = true) (a : Ast) :
    (searchNode a ⟨callsOf fs caller, []⟩).Written caller fs (findCalls caller a fs) :=
  written_searchNode hcaller a (Edges.written_self caller fs)

end

section

/-- Every call that is found keeps the property. -/
structure Edges.Closed (P : Edges → Prop) : Prop where
  call : ∀ {e}, P e → ∀ called, P (e.call called)
  link : ∀ {e}, P e → ∀ called, P (e.link called)

variable {P : Edges → Prop} (hP : Edges.Closed P)
include hP

theorem searchInfo_induction (h : P s.edges) : P (searchInfo info next s).edges := by
  unfold searchInfo
  split
  · split
    · exact hP.link h _
    · exact h
  · split
    · exact hP.call h _
    · exact h
  · exact h

mutual

theorem searchNode_induction : ∀ (a : Ast) {e : Edges}, P e → P (searchNode a e)
  | .node info children, e, h => by
    have hlevel : P (searchAmong children ⟨e, []⟩).edges := searchAmong_induction children h
    rw [searchNode]
    refine foldlRecOn _ _ hlevel ?_
    intro e' he' called _
    unfold searchText
    split
    · exact he'
    · exact hP.link he' called

theorem searchAmong_induction : ∀ (l : List Ast) {s : Search}, P s.edges → P (searchAmong l s).edges
  | [], _, h => h
  | a :: rest, s, h => by
    have hinfo := searchInfo_induction a.info rest.head? hP h
    rw [searchAmong]
    exact searchAmong_induction rest (searchNode_induction a hinfo)

end

end

theorem subset_calls_searchNode (a : Ast) (e : Edges) : e.calls ⊆ (searchNode a e).calls := by
  refine searchNode_induction (P := fun e' => e.calls ⊆ e'.calls) ⟨?_, ?_⟩ a (Subset.refl _) <;>
    exact fun h called x hx => mem_addNew.2 (.inl (h hx))

theorem linked_subset_calls_searchNode (a : Ast) (h : e.linked ⊆ e.calls) :
    (searchNode a e).linked ⊆ (searchNode a e).calls := by
  refine searchNode_induction (P := fun e' => e'.linked ⊆ e'.calls) ⟨?_, ?_⟩ a h
  · exact fun h called x hx => mem_addNew.2 (.inl (h hx))
  · exact fun h called => cons_subset.2
      ⟨mem_addNew.2 (.inr rfl), fun x hx => mem_addNew.2 (.inl (h hx))⟩

def mentionedBy? (info : NodeInfo) (next : Option Ast) : Option String :=
  match info.kind with
  | .call => info.referent.map calledName
  | .memberRef => memberCall? info next
  | _ => none

mutual

/-- The names called by the nodes below a node, or in their texts or its own. -/
def mentions : Ast → List String
  | .node info children => mentionsAmong children ++ callsInText info.text

/-- The names called by nodes of one level and below them. -/
def mentionsAmong : List Ast → List String
  | [] => []
  | a :: rest => (mentionedBy? a.info rest.head?).toList ++ mentions a ++ mentionsAmong rest

end

theorem mem_calls_searchInfo (s : Search) (x : String) :
    x ∈ (searchInfo info next s).edges.calls ↔
      x ∈ s.edges.calls ∨ x ∈ (mentionedBy? info next).toList := by
  unfold searchInfo mentionedBy?
  cases info.kind with
  | call =>
    cases info.referent with
    | none => simp
    | some r => simp [Edges.link, mem_addNew]
  | memberRef =>
    cases memberCall? info next with
    | none => simp
    | some called => simp [Edges.call, mem_addNew]
  | _ => simp

theorem found_subset_searchInfo (h : s.found ⊆ s.edges.calls) :
    (searchInfo info next s).found ⊆ (searchInfo info next s).edges.calls := by
  have hremember : ∀ called, s.remember called ⊆ addNew s.edges.calls called := by
    intro called x hx
    unfold Search.remember at hx
    split at hx
    · exact mem_addNew.2 (.inl (h hx))
    · rcases mem_addNew.1 hx with hx | rfl
      · exact mem_addNew.2 (.inl (h hx))
      · exact mem_addNew.2 (.inr rfl)
  unfold searchInfo
  split
  · split
    · exact hremember _
    · exact h
  · split
    · exact hremember _
    · exact h
  · exact h

theorem found_subset_searchAmong : ∀ (l : List Ast) {s : Search}, s.found ⊆ s.edges.calls →
    (searchAmong l s).found ⊆ (searchAmong l s).edges.calls
  | [], _, h => h
  | a :: rest, s, h => by
    rw [searchAmong]
    refine found_subset_searchAmong rest ?_
    exact List.Subset.trans (found_subset_searchInfo a.info rest.head? h)
      (subset_calls_searchNode a _)

theorem mem_calls_foldl_searchText {found : List String} (l : List String)
    (hfound : found ⊆ e.calls) (x : String) :
    x ∈ (l.foldl (searchText found) e).calls ↔ x ∈ e.calls ∨ x ∈ l := by
  induction l generalizing e with
  | nil => simp
  | cons called rest ih =>
    have hstep : ∀ y, y ∈ (searchText found e called).calls ↔ y ∈ e.calls ∨ y = called := by
      intro y
      unfold searchText
      split_ifs with hcontains
      · have hmem : called ∈ e.calls := hfound (by simpa using hcontains)
        constructor
        · exact .inl
        · rintro (hy | rfl)
          · exact hy
          · exact hmem
      · exact mem_addNew
    rw [foldl_cons, ih (fun y hy => (hstep y).2 (.inl (hfound hy))), hstep, mem_cons, or_assoc]

mutual

theorem mem_calls_searchNode (x : String) : ∀ (a : Ast) (e : Edges),
    x ∈ (searchNode a e).calls ↔ x ∈ e.calls ∨ x ∈ mentions a
  | .node info children, e => by
    have hfound := found_subset_searchAmong children
      (show (Search.mk e []).found ⊆ e.calls from nil_subset _)
    rw [searchNode, mentions, mem_calls_foldl_searchText _ hfound,
      mem_calls_searchAmong x children, mem_append, or_assoc]

theorem mem_calls_searchAmong (x : String) : ∀ (l : List Ast) (s : Search),
    x ∈ (searchAmong l s).edges.calls ↔ x ∈ s.edges.calls ∨ x ∈ mentionsAmong l
  | [], s => by simp [searchAmong, mentionsAmong]
  | a :: rest, s => by
    rw [searchAmong, mentionsAmong, mem_calls_searchAmong x rest, mem_calls_searchNode x a,
      mem_calls_searchInfo, mem_append, mem_append, or_assoc, or_assoc, or_assoc]

end

end CodeAtlas.Extraction
