import CodeAtlas.Proofs.Dot.Reading
import CodeAtlas.Structure.Program

/-!
# Reading a drawing of the most related functions

A drawing says once, for all nodes, that they are boxes. The reader of drawings
looks for that among the attributes of each node and takes no other node for a
function. So it finds every node and every arrow that was written, but the nodes
that it takes for functions are those whose name or file happens to say so
(`parse_drawing`). Drawings are made to be looked at.

Names and files stand in the text as they are. A name must not look like the
shaft of an arrow and a file must have no quote, or the reader finds arrows that
were not written (`drawing_misread`).
-/

namespace CodeAtlas.Structure

open Dot Pattern Text List

variable {a : String × String}

/-! ### Boxes -/

def shownFile (f : Function) : String :=
  if f.filePath.isEmpty then "unknown" else Path.baseName f.filePath

def labelOf (name : String) (f : Function) : List Char :=
  name.toList ++ '\\' :: 'n' :: '(' :: ((shownFile f).toList ++ [')'])

def labelOpening : List Char := ['l', 'a', 'b', 'e', 'l', '=', '"']

def readAttributes (name : String) (f : Function) : List Char :=
  labelOpening ++ (name.toList ++ '\\' :: 'n' :: '(' ::
    ((shownFile f).toList ++ [')', '"']).takeWhile (· != ']'))

/-- The node that is read from the line of a box, if the name is not empty. -/
def readBox (name : String) (f : Function) : List (String × String) :=
  if name = "" then [] else [(name, String.ofList (readAttributes name f))]

/-- The arrow that is read from its line, if no name at its ends is empty. -/
def readArrow (a : String × String) : List (String × String) :=
  if a.1 = "" ∨ a.2 = "" then [] else [a]

theorem mem_readBox {node : String × String} {name : String} {f : Function} :
    node ∈ readBox name f ↔ name ≠ "" ∧ node = (name, String.ofList (readAttributes name f)) := by
  by_cases hname : name = "" <;> simp [readBox, hname]

theorem mem_readArrow {b : String × String} : b ∈ readArrow a ↔ a.1 ≠ "" ∧ a.2 ≠ "" ∧ b = a := by
  by_cases hsource : a.1 = "" <;> by_cases htarget : a.2 = "" <;> simp [readArrow, hsource, htarget]

/-- A name without quotes and brackets that is not the shaft of an arrow. -/
structure Drawable (name : String) : Prop where
  quote : '"' ∉ name.toList
  opening : '[' ∉ name.toList
  closing : ']' ∉ name.toList
  shaft : strip name ≠ "->"

instance (name : String) : Decidable (Drawable name) :=
  decidable_of_iff ('"' ∉ name.toList ∧ '[' ∉ name.toList ∧ ']' ∉ name.toList ∧
      strip name ≠ "->")
    ⟨fun h => ⟨h.1, h.2.1, h.2.2.1, h.2.2.2⟩, fun h => ⟨h.quote, h.opening, h.closing, h.shaft⟩⟩

theorem toList_boxLine (name : String) (f : Function) : (boxLine name f).toList =
    ' ' :: ' ' :: '"' :: (name.toList ++ '"' :: ' ' :: '[' :: (labelOpening ++
      (labelOf name f ++ ['"', ']', ';']))) := by
  have hopening : "\" [label=\"".toList = ['"', ' ', '[', 'l', 'a', 'b', 'e', 'l', '=', '"'] := rfl
  have hclosing : ")\"];".toList = [')', '"', ']', ';'] := rfl
  have hbreak : "\\n(".toList = ['\\', 'n', '('] := rfl
  have hquote : "  \"".toList = [' ', ' ', '"'] := rfl
  simp only [boxLine, String.toList_append, hopening, hclosing, hbreak, hquote]
  simp [labelOf, labelOpening, shownFile]

theorem toList_arrowLine (source target : String) : (arrowLine source target).toList =
    ' ' :: ' ' :: '"' :: (source.toList ++ '"' :: ' ' :: '-' :: '>' :: ' ' ::
      '"' :: (target.toList ++ ['"', ';'])) := by
  have hshaft : "\" -> \"".toList = ['"', ' ', '-', '>', ' ', '"'] := rfl
  have hclosing : "\";".toList = ['"', ';'] := rfl
  have hquote : "  \"".toList = [' ', ' ', '"'] := rfl
  simp only [arrowLine, String.toList_append, hshaft, hclosing, hquote]
  simp

section

variable {name : String} {f : Function} {cs : List Char} {items : List (String × String)}

section

variable (h : Drawable name)
include h

theorem Drawable.attributes?_none (after : List Char) :
    attributes? (name.toList ++ '"' :: after) = none :=
  attributes?_eq_none h.opening (by decide) (by decide) after

theorem Drawable.target?_none (after : List Char) :
    target? (name.toList ++ '"' :: after) = none := by
  cases htarget : target? (name.toList ++ '"' :: after) with
  | none => rfl
  | some found =>
    obtain ⟨l, r, hsplit, hl, hr⟩ := shaft_of_target? h.quote htarget
    have hink : ∀ c ∈ ['-', '>'], isBlank c = false :=
      forall_mem_cons.2 ⟨by decide, forall_mem_singleton.2 (by decide)⟩
    have hstrip : strip name = "->" := by
      rw [strip, hsplit, trimList_append hl (by simp) hink hr]
    exact absurd hstrip h.shaft

section

variable (hfile : '"' ∉ (shownFile f).toList)
include hfile

theorem label_no_quote : '"' ∉ labelOf name f := by
  simp [labelOf, h.quote, hfile]

theorem target?_label (after : List Char) : target? (labelOf name f ++ '"' :: after) = none := by
  cases htarget : target? (labelOf name f ++ '"' :: after) with
  | none => rfl
  | some found =>
    obtain ⟨l, r, hsplit, hl, hr⟩ := shaft_of_target? (label_no_quote h hfile) htarget
    have hmem : '\\' ∈ l ++ (['-', '>'] ++ r) := hsplit ▸ by simp [labelOf]
    have hblank : isBlank '\\' = false := by decide
    rcases mem_append.1 hmem with hmem | hmem
    · exact absurd (hl _ hmem) (by simp [hblank])
    · rcases mem_append.1 hmem with hmem | hmem
      · exact absurd hmem (by decide)
      · exact absurd (hr _ hmem) (by simp [hblank])

theorem onward_target_box (hcs : Onward target? cs items) :
    Onward target? ('\n' :: (boxLine name f).toList ++ cs) items := by
  have hlabel := (hcs.plain (s := [']', ';']) (by decide)).passed (label_no_quote h hfile) rfl
    (target?_label h hfile _)
  have hname := (hlabel.plain (s := [' ', '[', 'l', 'a', 'b', 'e', 'l', '=']) (by decide)).passed
    h.quote rfl (h.target?_none _)
  simpa [toList_boxLine, labelOpening] using hname.plain (s := ['\n', ' ', ' ']) (by decide)

end

theorem readAttributes_no_bracket (f : Function) : ']' ∉ readAttributes name f := by
  have hfile : ']' ∉ ((shownFile f).toList ++ [')', '"']).takeWhile (· != ']') := fun hmem =>
    absurd (mem_takeWhile_imp hmem) (by simp)
  simp [readAttributes, labelOpening, h.closing, hfile]

end

theorem exists_behind_attributes (hfile : '"' ∉ (shownFile f).toList)
    (hend : ∀ s, '"' ∉ s → Onward attributes? (s ++ '"' :: ([']', ';'] ++ cs)) items)
    (hcs : Onward attributes? cs items) :
    ∃ after, Onward attributes? after items ∧
      labelOpening ++ (labelOf name f ++ '"' :: ([']', ';'] ++ cs)) =
        readAttributes name f ++ ']' :: after := by
  by_cases hmem : ']' ∈ (shownFile f).toList
  · obtain ⟨before, behind, hsplit, hbefore⟩ := eq_append_cons_of_mem hmem
    rw [hsplit, mem_append, mem_cons, not_or, not_or] at hfile
    refine ⟨behind ++ [')'] ++ '"' :: ([']', ';'] ++ cs), hend _ (by simp [hfile.2.2]), ?_⟩
    have htake := takeWhile_ne_append hbefore (behind ++ [')', '"'])
    simp [labelOf, readAttributes, hsplit, htake]
  · have hself : ((shownFile f).toList ++ [')', '"']).takeWhile (· != ']') =
        (shownFile f).toList ++ [')', '"'] := takeWhile_ne_of_not_mem (by simp [hmem])
    exact ⟨';' :: cs, hcs.plain (s := [';']) (by decide), by simp [labelOf, readAttributes, hself]⟩

theorem onward_attributes_box (h : Drawable name) (hfile : '"' ∉ (shownFile f).toList)
    (hcs : Onward attributes? cs items) :
    Onward attributes? ('\n' :: (boxLine name f).toList ++ cs) (readBox name f ++ items) := by
  have hend : ∀ s, '"' ∉ s → Onward attributes? (s ++ '"' :: ([']', ';'] ++ cs)) items :=
    fun s hs => ((hcs.plain (by decide)).quote rfl).plain hs
  by_cases hne : name = ""
  · -- the two quotes stand together, and those of the label are taken for a name
    subst hne
    have hlabel := (hend (labelOf "" f) (label_no_quote h hfile)).quote rfl
    have hempty :=
      (hlabel.plain (s := [' ', '[', 'l', 'a', 'b', 'e', 'l', '=']) (by decide)).empty rfl
    simpa [toList_boxLine, labelOpening, readBox] using
      hempty.plain (s := ['\n', ' ', ' ']) (by decide)
  · obtain ⟨after, hafter, hsplit⟩ := exists_behind_attributes hfile hend hcs
    have hitem : attributes? (' ' :: '[' ::
        (labelOpening ++ (labelOf name f ++ '"' :: ([']', ';'] ++ cs)))) =
          some (String.ofList (readAttributes name f), after) := by
      rw [hsplit]
      exact attributes?_brackets (by simp [readAttributes, labelOpening])
        (readAttributes_no_bracket h f) after
    have hfound := hafter.found (s := name.toList) (by simpa using hne) h.quote hitem
      (h.attributes?_none _)
    simpa [toList_boxLine, readBox, hne] using hfound.plain (s := ['\n', ' ', ' ']) (by decide)

theorem onward_attributes_arrow (hsource : Drawable a.1) (htarget : Drawable a.2)
    (hcs : Onward attributes? cs items) :
    Onward attributes? ('\n' :: (arrowLine a.1 a.2).toList ++ cs) items := by
  have hshaft := ((hcs.plain (s := [';']) (by decide)).passed htarget.quote rfl
    (htarget.attributes?_none _)).plain (s := [' ', '-', '>', ' ']) (by decide)
  have hname := hshaft.passed hsource.quote rfl (hsource.attributes?_none _)
  simpa [toList_arrowLine] using hname.plain (s := ['\n', ' ', ' ']) (by decide)

theorem onward_target_arrow (hsource : Drawable a.1) (htarget : Drawable a.2)
    (hcs : Onward target? cs items) :
    Onward target? ('\n' :: (arrowLine a.1 a.2).toList ++ cs) (readArrow a ++ items) := by
  obtain ⟨source, target⟩ := a
  have hend : Onward target? (';' :: cs) items := hcs.plain (s := [';']) (by decide)
  have hshaft := (hend.passed htarget.quote rfl (htarget.target?_none _)).plain
    (s := [' ', '-', '>', ' ']) (by decide)
  by_cases hempty : target = ""
  · subst hempty
    have hname := hshaft.passed hsource.quote (target?_shaft_empty _) (hsource.target?_none _)
    simpa [toList_arrowLine, readArrow] using hname.plain (s := ['\n', ' ', ' ']) (by decide)
  · by_cases hempty' : source = ""
    · subst hempty'
      have hname := hshaft.empty rfl
      simpa [toList_arrowLine, readArrow] using hname.plain (s := ['\n', ' ', ' ']) (by decide)
    · have hfound := hend.found (s := source.toList) (by simpa using hempty') hsource.quote
        (target?_shaft_name (by simpa using hempty) htarget.quote _) (hsource.target?_none _)
      simpa [toList_arrowLine, readArrow, hempty, hempty'] using
        hfound.plain (s := ['\n', ' ', ' ']) (by decide)

end

/-! ### What the attributes say -/

/-- The name or the file of a box, up to a closing bracket, says that a node is a box. -/
def SaysBox (name : String) (f : Function) : Prop :=
  occursIn "shape=box" name = true ∨
    occursIn "shape=box" (String.ofList ((shownFile f).toList.takeWhile (· != ']'))) = true

instance (name : String) (f : Function) : Decidable (SaysBox name f) :=
  inferInstanceAs (Decidable (_ ∨ _))

section

variable {w : List Char} (hlength : labelOpening.length ≤ w.length)
  (hquote : '"' ∉ w) (hslash : '\\' ∉ w) (hopening : '(' ∉ w) (hclosing : ')' ∉ w)

include hlength

-- none of the characters that set the parts of the attributes apart occurs in the word
include hquote hslash hopening in
theorem infix_attributes_iff (name file : List Char) :
    w <:+: labelOpening ++ (name ++ '\\' :: 'n' :: '(' :: file) ↔ w <:+: name ∨ w <:+: file := by
  have hlabel : ¬ w <:+: ['l', 'a', 'b', 'e', 'l', '='] := fun h =>
    absurd (hlength.trans h.length_le) (by decide)
  have hbreak : ¬ w <:+: ['n'] := fun h => absurd (hlength.trans h.length_le) (by decide)
  have hn := infix_append_cons_iff (x := ['n']) (y := file) hopening
  have hall := infix_append_cons_iff (x := ['l', 'a', 'b', 'e', 'l', '='])
    (y := name ++ '\\' :: 'n' :: '(' :: file) hquote
  rw [singleton_append] at hn
  simpa [labelOpening, hlabel, hbreak, infix_append_cons_iff hslash, hn] using hall

include hclosing in
theorem infix_file_iff (file : List Char) :
    w <:+: (file ++ [')', '"']).takeWhile (· != ']') ↔ w <:+: file.takeWhile (· != ']') := by
  by_cases hmem : ']' ∈ file
  · obtain ⟨before, behind, rfl, hbefore⟩ := eq_append_cons_of_mem hmem
    rw [append_assoc, cons_append, takeWhile_ne_append hbefore, takeWhile_ne_append hbefore]
  · have hquote : ¬ w <:+: ['"'] := fun h => absurd (hlength.trans h.length_le) (by decide)
    rw [takeWhile_ne_of_not_mem hmem, takeWhile_ne_of_not_mem (by simp [hmem]),
      infix_append_cons_iff hclosing]
    simp [hquote]

end

theorem occursIn_readAttributes (name : String) (f : Function) :
    occursIn "shape=box" (String.ofList (readAttributes name f)) = true ↔ SaysBox name f := by
  rw [SaysBox, occursIn_iff, occursIn_iff, occursIn_iff,
    String.toList_ofList (l := readAttributes name f), readAttributes,
    infix_attributes_iff (by decide) (by decide) (by decide) (by decide),
    infix_file_iff (by decide) (by decide),
    String.toList_ofList (l := (shownFile f).toList.takeWhile (· != ']'))]

/-! ### The whole drawing -/

/-- The function that is drawn under a name. -/
def drawnAs (g : CallGraph) (name : String) : Function := (g.functions.get? name).getD { name }

def Legible (maxNodes : Int) (g : CallGraph) : Prop :=
  ∀ name ∈ drawn maxNodes g.functions,
    Drawable name ∧ '"' ∉ (shownFile (drawnAs g name)).toList

/-- What a drawing says of all nodes, behind its title. -/
def settings : List Char :=
  ' ' :: '\x7b' :: "\n  node [shape=box, style=filled, fillcolor=lightblue];".toList ++
    "\n  rankdir=LR;\n  concentrate=true;".toList

theorem drawn_of_pairwise {fs : Functions} (maxNodes : Int)
    (hrelated : ∀ entry ∈ fs, 0 < entry.2.calledBy.length + entry.2.calls.length)
    (hsorted : fs.Pairwise fun a b =>
      b.2.calledBy.length + b.2.calls.length ≤ a.2.calledBy.length + a.2.calls.length) :
    drawn maxNodes fs = (Positions.upTo fs maxNodes).map (·.1) := by
  unfold drawn
  dsimp only
  rw [filter_eq_self.2 fun entry hentry => decide_eq_true (hrelated entry hentry),
    mergeSort_of_pairwise (hsorted.imp decide_eq_true)]

theorem mem_of_mem_arrows {fs : Functions} {names : List String} (h : a ∈ arrows fs names) :
    a.1 ∈ names ∧ a.2 ∈ names := by
  unfold arrows at h
  rw [mem_reverse] at h
  refine foldlRecOn (motive := fun (state : List String × List (String × String)) =>
    ∀ a ∈ state.2, a.1 ∈ names ∧ a.2 ∈ names) _ _ (by simp) (fun state hstate b hb => ?_) a h
  dsimp only
  split
  · exact hstate
  · apply forall_mem_cons.2 ⟨?_, hstate⟩
    obtain ⟨name, hname, hcalled⟩ := mem_flatMap.1 hb
    obtain ⟨called, -, hif⟩ := mem_filterMap.1 hcalled
    obtain ⟨hmem, rfl⟩ : called ∈ names ∧ (name, called) = b := by simpa using hif
    exact ⟨hname, hmem⟩

theorem toList_drawing (maxNodes : Int) (g : CallGraph) : (drawing maxNodes g).toList =
    "digraph ".toList ++ '"' :: ("Call Graph".toList ++ '"' :: (settings ++
      ((drawn maxNodes g.functions).flatMap
          (fun name => '\n' :: (boxLine name (drawnAs g name)).toList) ++
        ((arrows g.functions (drawn maxNodes g.functions)).flatMap
          (fun a => '\n' :: (arrowLine a.1 a.2).toList) ++ ['\n', '\x7d'])))) := by
  have hheader : "digraph \"Call Graph\" \x7b".toList ++
      ["  node [shape=box, style=filled, fillcolor=lightblue];", "  rankdir=LR;",
        "  concentrate=true;"].flatMap ('\n' :: ·.toList) =
      "digraph ".toList ++ '"' :: ("Call Graph".toList ++ '"' :: settings) := by
    decide +kernel
  have hlines := congrArg (· ++ ((drawn maxNodes g.functions).flatMap
      (fun name => '\n' :: (boxLine name (drawnAs g name)).toList) ++
    ((arrows g.functions (drawn maxNodes g.functions)).flatMap
      (fun a => '\n' :: (arrowLine a.1 a.2).toList) ++ ['\n', '\x7d']))) hheader
  rw [drawing, append_assoc, append_assoc, cons_append, toList_join_cons]
  simpa [flatMap_append, flatMap_map, drawnAs] using hlines

theorem settings_no_quote : '"' ∉ settings := by decide +kernel

section

variable {next? : List Char → Option (String × List Char)} {cs : List Char}
  {items : List (String × String)}

theorem onward_title (hname : ∀ after, next? ('C' :: after) = none)
    (hbrace : ∀ after, next? (' ' :: '\x7b' :: after) = none) (hcs : Onward next? cs items) :
    Onward next? ("digraph ".toList ++ '"' :: ("Call Graph".toList ++ '"' :: (settings ++ cs)))
      items := by
  have hbehind := (hcs.plain settings_no_quote).quote (hbrace _)
  exact ((hbehind.plain (by decide)).quote (hname _)).plain (by decide)

variable {maxNodes : Int} {g : CallGraph} (h : Legible maxNodes g)

include h

theorem arrows_drawing : Dot.arrows (drawing maxNodes g) =
    (arrows g.functions (drawn maxNodes g.functions)).flatMap readArrow := by
  have hend : Onward target? ['\n', '\x7d'] [] := onward_last (by decide)
  have harrows := flatMap_lines (P := Onward target?)
    (arrows g.functions (drawn maxNodes g.functions)) (fun a => '\n' :: (arrowLine a.1 a.2).toList)
    readArrow
    (fun a ha _ _ => onward_target_arrow (h _ (mem_of_mem_arrows ha).1).1
      (h _ (mem_of_mem_arrows ha).2).1) hend
  rw [append_nil] at harrows
  have hboxes := flatMap_passed (P := fun cs => Onward target? cs
      ((arrows g.functions (drawn maxNodes g.functions)).flatMap readArrow))
    (drawn maxNodes g.functions)
    (fun name => '\n' :: (boxLine name (drawnAs g name)).toList)
    (fun name hname _ => onward_target_box (h name hname).1 (h name hname).2) harrows
  apply arrows_of_onward
  rw [toList_drawing]
  exact onward_title (fun _ => rfl) (fun _ => rfl) hboxes

theorem nodes_drawing : nodes (drawing maxNodes g) =
    ((drawn maxNodes g.functions).flatMap fun name => readBox name (drawnAs g name)).filterMap
      box? := by
  have hend : Onward attributes? ['\n', '\x7d'] [] := onward_last (by decide)
  have harrows := flatMap_passed (P := fun cs => Onward attributes? cs [])
    (arrows g.functions (drawn maxNodes g.functions))
    (fun a => '\n' :: (arrowLine a.1 a.2).toList)
    (fun a ha _ => onward_attributes_arrow (h _ (mem_of_mem_arrows ha).1).1
      (h _ (mem_of_mem_arrows ha).2).1) hend
  have hboxes := flatMap_lines (P := Onward attributes?) (drawn maxNodes g.functions)
    (fun name => '\n' :: (boxLine name (drawnAs g name)).toList)
    (fun name => readBox name (drawnAs g name))
    (fun name hname _ _ => onward_attributes_box (h name hname).1 (h name hname).2) harrows
  rw [append_nil] at hboxes
  apply nodes_of_onward
  rw [toList_drawing]
  exact onward_title (fun _ => rfl) (fun _ => rfl) hboxes

theorem mem_keys_drawing (key : String) :
    key ∈ (Dot.parse (drawing maxNodes g)).functions.keys ↔
      key ∈ drawn maxNodes g.functions ∧ key ≠ "" ∧ SaysBox key (drawnAs g key) := by
  rw [mem_keys_parse, nodes_drawing h]
  constructor
  · rintro ⟨f, hf, rfl⟩
    obtain ⟨node, hnode, hbox⟩ := mem_filterMap.1 hf
    obtain ⟨name, hname, hread⟩ := mem_flatMap.1 hnode
    obtain ⟨hne, rfl⟩ := mem_readBox.1 hread
    obtain ⟨hoccurs, hkey, -⟩ := box?_eq_some hbox
    rw [hkey]
    exact ⟨hname, hne, (occursIn_readAttributes _ _).1 hoccurs⟩
  · rintro ⟨hname, hne, hbox⟩
    refine ⟨_, mem_filterMap.2 ⟨_, mem_flatMap.2 ⟨key, hname, mem_readBox.2 ⟨hne, rfl⟩⟩,
      if_pos ((occursIn_readAttributes _ _).2 hbox)⟩, rfl⟩

theorem mem_arrows_drawing (f c : String) :
    (f, c) ∈ Dot.arrows (drawing maxNodes g) ↔
      f ≠ "" ∧ c ≠ "" ∧ (f, c) ∈ arrows g.functions (drawn maxNodes g.functions) := by
  rw [arrows_drawing h, mem_flatMap]
  constructor
  · rintro ⟨a, ha, hread⟩
    obtain ⟨hf, hc, rfl⟩ := mem_readArrow.1 hread
    exact ⟨hf, hc, ha⟩
  · rintro ⟨hf, hc, ha⟩
    exact ⟨_, ha, mem_readArrow.2 ⟨hf, hc, rfl⟩⟩

end

/-- Of a drawing, the reader takes for functions the nodes whose name or file says that they are
boxes, and no others. It gives them the arrows that were written, as far as both ends have a name,
and the targets of arrows that it does not take for functions are missing. -/
theorem parse_drawing (maxNodes : Int) (g : CallGraph)
    (hnames : ∀ name ∈ drawn maxNodes g.functions, Drawable name)
    (hfiles : ∀ name ∈ drawn maxNodes g.functions, '"' ∉ (shownFile (drawnAs g name)).toList) :
    let written := arrows g.functions (drawn maxNodes g.functions)
    let read := Dot.parse (drawing maxNodes g)
    (∀ key, key ∈ read.functions.keys ↔
      key ∈ drawn maxNodes g.functions ∧ key ≠ "" ∧ SaysBox key (drawnAs g key)) ∧
    (∀ f c, read.functions.Calls f c ↔ f ∈ read.functions.keys ∧ c ≠ "" ∧ (f, c) ∈ written) ∧
    (∀ c f, read.functions.CalledBy c f ↔ c ∈ read.functions.keys ∧ f ≠ "" ∧ (f, c) ∈ written) ∧
    (∀ c, c ∈ read.missing ↔
      c ∉ read.functions.keys ∧ c ≠ "" ∧ ∃ f, f ≠ "" ∧ (f, c) ∈ written) := by
  have h : Legible maxNodes g := fun name hname => ⟨hnames name hname, hfiles name hname⟩
  have hkeys := mem_keys_drawing h
  have harrows := mem_arrows_drawing h
  refine ⟨hkeys, fun f c => ?_, fun c f => ?_, fun c => ?_⟩
  · rw [calls_parse, harrows]
    exact and_congr_right fun hf => and_iff_right ((hkeys f).1 hf).2.1
  · rw [calledBy_parse, harrows]
    refine and_congr_right fun hc => ?_
    have hne := ((hkeys c).1 hc).2.1
    simp [hne]
  · rw [mem_missing_parse]
    simp only [harrows]
    constructor
    · rintro ⟨⟨f, hf, hc, ha⟩, hkey⟩
      exact ⟨hkey, hc, f, hf, ha⟩
    · rintro ⟨hkey, hc, f, hf, ha⟩
      exact ⟨⟨f, hf, hc, ha⟩, hkey⟩

/-- Two functions that call each other; the file of one says that a node is a box. -/
def boxFile : CallGraph where
  functions :=
    [("draw",
      { name := "draw", filePath := "src/shape=box.c", calls := ["main"], calledBy := ["main"] }),
     ("main",
      { name := "main", filePath := "src/main.c", calls := ["draw"], calledBy := ["draw"] })]

theorem drawn_boxFile : drawn 2 boxFile.functions = ["draw", "main"] :=
  drawn_of_pairwise 2 (by decide) (by decide)

theorem parse_drawing_boxFile :
    (∀ name ∈ drawn 2 boxFile.functions, Drawable name) ∧
      (∀ name ∈ drawn 2 boxFile.functions, '"' ∉ (shownFile (drawnAs boxFile name)).toList) ∧
      let read := Dot.parse (drawing 2 boxFile)
      "draw" ∈ read.functions.keys ∧ "main" ∉ read.functions.keys ∧
        read.functions.Calls "draw" "main" ∧ read.functions.CalledBy "draw" "main" ∧
        "main" ∈ read.missing := by
  have hnames : ∀ name ∈ drawn 2 boxFile.functions, Drawable name := by
    rw [drawn_boxFile]
    decide
  have hfiles : ∀ name ∈ drawn 2 boxFile.functions,
      '"' ∉ (shownFile (drawnAs boxFile name)).toList := by
    rw [drawn_boxFile]
    decide
  have harrows : arrows boxFile.functions (drawn 2 boxFile.functions) =
      [("draw", "main"), ("main", "draw")] := by
    rw [drawn_boxFile]
    decide
  obtain ⟨hkeys, hcalls, hcalledBy, hmissing⟩ := parse_drawing 2 boxFile hnames hfiles
  rw [harrows] at hcalls hcalledBy hmissing
  rw [drawn_boxFile] at hkeys
  have hdraw := (hkeys "draw").2 ⟨by decide, by decide, .inr (by decide)⟩
  have hmain : "main" ∉ (Dot.parse (drawing 2 boxFile)).functions.keys := fun h =>
    absurd ((hkeys "main").1 h).2.2 (by decide)
  exact ⟨hnames, hfiles, hdraw, hmain, (hcalls _ _).2 ⟨hdraw, by decide, by decide⟩,
    (hcalledBy _ _).2 ⟨hdraw, by decide, by decide⟩,
    (hmissing _).2 ⟨hmain, by decide, "draw", by decide, by decide⟩⟩

/-! ### What is lost and what is made up -/

def onePair : CallGraph where
  functions :=
    [("a", { name := "a", calls := ["b"] }), ("b", { name := "b", calledBy := ["a"] })]

/-- A function that calls itself and is named like the shaft of an arrow. -/
def shaftName : CallGraph where
  functions := [("->", { name := "->", calls := ["->"], calledBy := ["->"] })]

/-- A function that calls itself, in a file with quotes. -/
def quotedFile : CallGraph where
  functions := [("a", { name := "a", filePath := "x\"->\"y", calls := ["a"], calledBy := ["a"] })]

theorem drawn_onePair : drawn 2 onePair.functions = ["a", "b"] :=
  drawn_of_pairwise 2 (by decide) (by decide)

theorem parse_onePair : Dot.parse (drawing 2 onePair) = { missing := ["b"] } := by
  have hlegible : Legible 2 onePair := by
    rw [Legible, drawn_onePair]
    decide
  rw [Dot.parse, nodes_drawing hlegible, arrows_drawing hlegible, drawn_onePair]
  rfl

theorem drawn_shaftName : drawn 1 shaftName.functions = ["->"] :=
  drawn_of_pairwise 1 (by decide) (by decide)

theorem drawn_quotedFile : drawn 1 quotedFile.functions = ["a"] :=
  drawn_of_pairwise 1 (by decide) (by decide)

-- an arrow begins at the quote behind the title, and another one at the quote behind the label
theorem arrows_shaftName : Dot.arrows (drawing 1 shaftName) =
    [(String.ofList (settings ++ ['\n', ' ', ' ']), " [label="), ("];\n  ", " -> ")] := by
  have harrows : arrows shaftName.functions ["->"] = [("->", "->")] := by decide
  have hend : Onward target? ['-', '>', '"', ';', '\n', '\x7d'] [] :=
    ((onward_last (s := [';', '\n', '\x7d']) (by decide)).quote rfl).plain (s := ['-', '>'])
      (by decide)
  have hsecond : Onward target? ("\"];\n  \"->\" -> \"->\";\n\x7d".toList) [("];\n  ", " -> ")] :=
    hend.found (s := "];\n  ".toList) (by decide) (by decide)
      (show target? ("->\" -> \"->\";\n\x7d".toList) = some (" -> ", _) from rfl) rfl
  have hfirst := (hsecond.plain (s := "->\\n(unknown)".toList) (by decide)).found
    (s := settings ++ ['\n', ' ', ' ']) (by decide) (by simp [settings_no_quote])
    (show target? ("->\" [label=\"".toList ++ ("->\\n(unknown)".toList ++
      "\"];\n  \"->\" -> \"->\";\n\x7d".toList)) = some (" [label=", _) from rfl) rfl
  apply arrows_of_onward
  rw [toList_drawing, drawn_shaftName, harrows]
  exact ((hfirst.plain (s := "Call Graph".toList) (by decide)).quote (by rfl)).plain (by decide)

theorem arrows_quotedFile : Dot.arrows (drawing 1 quotedFile) = [("a\\n(x", "y)"), ("a", "a")] := by
  have harrows : arrows quotedFile.functions ["a"] = [("a", "a")] := by decide
  have harrow := onward_target_arrow (a := ("a", "a")) (by decide) (by decide)
    (onward_last (s := ['\n', '\x7d']) (by decide))
  have hfile := (harrow.plain (s := [']', ';']) (by decide)).found (s := "a\\n(x".toList)
    (by decide) (by decide)
    (show target? ("->\"y)\"".toList ++ ([']', ';'] ++ ('\n' :: (arrowLine "a" "a").toList ++
      ['\n', '\x7d']))) = some ("y)", _) from rfl) rfl
  have hname := ((hfile.plain (s := " [label=".toList) (by decide)).quote (by rfl)).plain
    (s := "a".toList) (by decide)
  have hbox := (hname.quote (by rfl)).plain (s := ['\n', ' ', ' ']) (by decide)
  apply arrows_of_onward
  rw [toList_drawing, drawn_quotedFile, harrows]
  exact onward_title (fun _ => rfl) (fun _ => rfl) hbox

/-- Of a function that calls another one nothing is read but the missing name of the other. A name
like the shaft of an arrow or a file with quotes makes up arrows that were not written. -/
theorem drawing_misread :
    (drawn 2 onePair.functions = ["a", "b"] ∧
      Dot.parse (drawing 2 onePair) = { missing := ["b"] }) ∧
    (arrows shaftName.functions (drawn 1 shaftName.functions) = [("->", "->")] ∧
      Dot.arrows (drawing 1 shaftName) =
        [(String.ofList (settings ++ ['\n', ' ', ' ']), " [label="), ("];\n  ", " -> ")]) ∧
    (arrows quotedFile.functions (drawn 1 quotedFile.functions) = [("a", "a")] ∧
      Dot.arrows (drawing 1 quotedFile) = [("a\\n(x", "y)"), ("a", "a")]) := by
  rw [drawn_shaftName, drawn_quotedFile]
  exact ⟨⟨drawn_onePair, parse_onePair⟩, ⟨by decide, arrows_shaftName⟩,
    ⟨by decide, arrows_quotedFile⟩⟩

end CodeAtlas.Structure
