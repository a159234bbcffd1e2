import CodeAtlas.Proofs.Dot.Reading

/-!
# Drawings are read back

A drawing that is written line by line and read again gives the graph that it
shows (`parse_render_eq_graph`): the boxes in their order, with file and line, and the
calls between them.

The names are qualified: parts joined by two colons. That a part begins with a
letter, an underscore or a tilde is what keeps the scans in step with the lines
(no name looks like attributes or a shaft to the quote before it) and what keeps
the colons of a name apart from the one in front of the line number.
-/

namespace CodeAtlas.Dot

open Pattern List Text

variable {name before after : List Char} {call : String × String} {c : Char}

/-! ### Qualified names -/

def startsPart (c : Char) : Bool := (isWordChar c && !isDecimal c) || c == '~'

def isPlain (c : Char) : Bool := !([':', '"', ']', '\\'].contains c)

def IsPart (cs : List Char) : Prop :=
  cs.head?.any startsPart = true ∧ cs.all isPlain = true

instance (cs : List Char) : Decidable (IsPart cs) :=
  inferInstanceAs (Decidable (_ ∧ _))

/-- Parts joined by two colons. -/
inductive IsQualified : List Char → Prop where
  | part {cs : List Char} (h : IsPart cs) : IsQualified cs
  | join {cs rest : List Char} (h : IsPart cs) (hrest : IsQualified rest) :
      IsQualified (cs ++ ':' :: ':' :: rest)

theorem ne_of_startsPart {d : Char} (hc : startsPart c = true) (hd : startsPart d = false) :
    c ≠ d := by
  rintro rfl
  exact absurd hc (by simp [hd])

theorem isBlank_of_startsPart (h : startsPart c = true) : isBlank c = false := by
  simp only [startsPart, Bool.or_eq_true, Bool.and_eq_true, beq_iff_eq] at h
  rcases h with ⟨hword, -⟩ | rfl
  · exact isBlank_of_isWordChar hword
  · decide

theorem isDecimal_of_startsPart (h : startsPart c = true) : isDecimal c = false := by
  simp only [startsPart, Bool.or_eq_true, Bool.and_eq_true, beq_iff_eq, Bool.not_eq_true'] at h
  rcases h with ⟨-, hdecimal⟩ | rfl
  · exact hdecimal
  · decide +kernel

section

variable {cs : List Char}

theorem IsPart.not_mem (h : IsPart cs) (hc : isPlain c = false) : c ∉ cs := by
  intro hmem
  exact absurd (all_eq_true.1 h.2 c hmem) (by simp [hc])

theorem IsPart.eq_cons (h : IsPart cs) : ∃ c rest, cs = c :: rest ∧ startsPart c = true := by
  cases cs with
  | nil => exact absurd h.1 (by simp)
  | cons c rest => exact ⟨c, rest, rfl, by simpa using h.1⟩

theorem IsQualified.eq_cons (h : IsQualified cs) :
    ∃ c rest, cs = c :: rest ∧ startsPart c = true := by
  induction h with
  | part h => exact h.eq_cons
  | join h _ _ =>
    obtain ⟨c, rest, rfl, hc⟩ := h.eq_cons
    exact ⟨c, _, rfl, hc⟩

theorem IsQualified.ne_nil (h : IsQualified cs) : cs ≠ [] := by
  obtain ⟨c, rest, rfl, -⟩ := h.eq_cons
  simp

theorem IsQualified.not_mem (h : IsQualified cs) (hc : isPlain c = false) (hcolon : c ≠ ':') :
    c ∉ cs := by
  induction h with
  | part h => exact h.not_mem hc
  | join h _ ih => simp [h.not_mem hc, hcolon, ih]

theorem eq_or_behind_first {x y : List Char} (hx : c ∉ x) (h : x ++ c :: y = before ++ c :: after) :
    after = y ∨ ∃ l, y = l ++ c :: after := by
  induction x generalizing before with
  | nil =>
    cases before with
    | nil => exact .inl (cons.inj h).2.symm
    | cons d l => exact .inr ⟨l, (cons.inj h).2⟩
  | cons d x ih =>
    cases before with
    | nil => exact absurd (cons.inj h).1.symm (ne_of_not_mem_cons hx)
    | cons e before => exact ih (not_mem_of_not_mem_cons hx) (cons.inj h).2

theorem IsQualified.behind_colon (h : IsQualified cs) (hcs : cs = before ++ ':' :: after) :
    ∃ c rest, after = c :: rest ∧ (c = ':' ∨ startsPart c = true) := by
  induction h generalizing before with
  | part h => exact absurd (hcs ▸ by simp) (h.not_mem (c := ':') (by decide))
  | @join part rest h hrest ih =>
    rcases eq_or_behind_first (h.not_mem (by decide)) hcs with rfl | ⟨l, hl⟩
    · exact ⟨':', rest, rfl, .inl rfl⟩
    · rcases eq_or_behind_first (x := []) (by simp) hl with rfl | ⟨l', hl'⟩
      · obtain ⟨c, tail, hafter, hc⟩ := hrest.eq_cons
        exact ⟨c, tail, hafter, .inr hc⟩
      · exact ih hl'

end

/-! ### Boxes -/

def Box.label (b : Box) : List Char :=
  b.name.toList ++ '\\' :: 'n' :: (b.file.toList ++ ':' :: Nat.toDigits 10 b.line)

def boxKey : List Char := ['s', 'h', 'a', 'p', 'e', '=', 'b', 'o', 'x', ',']

def Box.attributes (b : Box) : List Char := boxKey ++ (labelKey ++ '"' :: (b.label ++ ['"']))

/-- A box with a qualified name and a file whose name has no character with a meaning. -/
structure Box.Proper (b : Box) : Prop where
  name : IsQualified b.name.toList
  file : b.file.toList.all (fun c => isPlain c && c != '\n') = true

def Box.function (b : Box) : Function :=
  { name := b.name, filePath := b.file, lineNumber := b.line }

theorem toList_render (b : Box) :
    b.render.toList = '"' :: (b.name.toList ++ '"' :: ' ' :: '[' :: (b.attributes ++ [']'])) := by
  have hkeys : "\" [shape=box,label=\"".toList =
      '"' :: ' ' :: '[' :: (boxKey ++ (labelKey ++ ['"'])) := rfl
  have hslash : "\\n".toList = ['\\', 'n'] := rfl
  simp only [Box.render, String.toList_append, hkeys, hslash, Nat.toString_eq_ofList_toDigits,
    String.toList_ofList]
  simp [Box.attributes, Box.label]

theorem toList_renderCall (call : String × String) :
    (renderCall call).toList = '"' :: (call.1.toList ++ '"' :: ' ' :: '-' :: '>' :: ' ' ::
      '"' :: (call.2.toList ++ ['"'])) := by
  have hshaft : "\" -> \"".toList = ['"', ' ', '-', '>', ' ', '"'] := rfl
  simp [renderCall, hshaft]

section

variable {b : Box}

theorem Box.Proper.file_not_mem (h : b.Proper) (hc : isPlain c = false) : c ∉ b.file.toList := by
  intro hmem
  have hplain := all_eq_true.1 h.file c hmem
  simp [hc] at hplain

theorem Box.Proper.file_line (h : b.Proper) : ∀ c ∈ b.file.toList, c ≠ ':' ∧ c ≠ '\n' := by
  intro c hc
  have hplain := all_eq_true.1 h.file c hc
  simp only [isPlain, Bool.and_eq_true, Bool.not_eq_true', contains_eq_mem, mem_cons,
    decide_eq_false_iff_not, not_or, bne_iff_ne] at hplain
  exact ⟨hplain.1.1, hplain.2⟩

theorem Box.Proper.label_not_mem (h : b.Proper) (hc : c = '"' ∨ c = ']') : c ∉ b.label := by
  have hmark : isPlain c = false ∧ c ≠ ':' ∧ c ≠ '\\' ∧ c ≠ 'n' ∧ c.isDigit = false := by
    rcases hc with rfl | rfl <;> decide
  obtain ⟨hplain, hcolon, hslash, hn, hdigit⟩ := hmark
  have hline : c ∉ Nat.toDigits 10 b.line := fun hmem =>
    absurd (Nat.isDigit_of_mem_toDigits (by decide) (by decide) hmem) (by simp [hdigit])
  simp [Box.label, h.name.not_mem hplain hcolon, h.file_not_mem hplain, hline, hcolon, hslash, hn]

theorem Box.Proper.behind_colon (h : b.Proper) {l : List Char}
    (hl : b.name.toList ++ '\\' :: 'n' :: b.file.toList = l ++ ':' :: after) :
    ∃ c rest, after = c :: rest ∧ c ≠ '\\' ∧ isDecimal c = false := by
  have hfile : ':' ∉ '\\' :: 'n' :: b.file.toList := by
    simp [h.file_not_mem (c := ':') (by decide)]
  rcases append_eq_append_iff.1 hl with ⟨l', -, hl'⟩ | ⟨name', hname, hl'⟩
  · exact absurd (hl' ▸ by simp) hfile
  · cases name' with
    | nil => exact absurd (cons.inj hl').1 (by decide)
    | cons d name' =>
      obtain ⟨rfl, rfl⟩ := cons.inj hl'
      obtain ⟨c, rest, rfl, hc⟩ := h.name.behind_colon hname
      refine ⟨c, _, rfl, ?_⟩
      rcases hc with rfl | hc
      · decide +kernel
      · exact ⟨ne_of_startsPart hc (by decide +kernel), isDecimal_of_startsPart hc⟩

theorem Box.Proper.place_attributes (h : b.Proper) :
    place (String.ofList b.attributes) = (b.file, b.line) := by
  have hlabel := search?_label boxKey b.label [] (by decide) (by simp [Box.label])
    (h.label_not_mem (.inl rfl))
  have hfile := search?_file b.name.toList b.file.toList (Nat.toDigits 10 b.line)
    (h.name.not_mem (by decide) (by decide)) h.file_line
  have hline := search?_line (b.name.toList ++ '\\' :: 'n' :: b.file.toList)
    (Nat.toDigits 10 b.line) h.behind_colon Nat.toDigits_ne_nil
    (fun c hc => Nat.isDigit_of_mem_toDigits (by decide) (by decide) hc)
  rw [append_assoc, cons_append, cons_append] at hline
  obtain ⟨m, hm, hgroup⟩ := Option.map_eq_some_iff.1 hlabel
  obtain ⟨n, hn, hnumber⟩ := Option.map_eq_some_iff.1 hline
  unfold place
  rw [Box.attributes, hm]
  simp only [hgroup, Box.label]
  rw [hfile, hn, Option.map_some, hnumber, digitsValue_toDigits]
  simp

theorem Box.Proper.box?_attributes (h : b.Proper) :
    box? (b.name, String.ofList b.attributes) = some b.function := by
  have hbox : occursIn "shape=box" (String.ofList b.attributes) = true := by
    have hkey : "shape=box".toList = ['s', 'h', 'a', 'p', 'e', '=', 'b', 'o', 'x'] := rfl
    rw [occursIn_iff, hkey, String.toList_ofList]
    exact List.IsPrefix.isInfix ⟨',' :: (labelKey ++ '"' :: (b.label ++ ['"'])), rfl⟩
  rw [box?, if_pos hbox, h.place_attributes]
  rfl

end

/-! ### The lines of a drawing -/

section

variable {cs : List Char} {items : List (String × String)}

theorem attributes?_name (h : IsQualified name) (after : List Char) :
    attributes? (name ++ after) = none := by
  obtain ⟨c, rest, rfl, hc⟩ := h.eq_cons
  exact attributes?_eq_none (m := []) (by simp) (ne_of_startsPart hc (by decide +kernel))
    (isBlank_of_startsPart hc) (rest ++ after)

theorem target?_name (h : IsQualified name) (after : List Char) :
    target? (name ++ after) = none := by
  obtain ⟨c, rest, rfl, hc⟩ := h.eq_cons
  exact target?_eq_none (m := []) (by simp) (ne_of_startsPart hc (by decide +kernel))
    (isBlank_of_startsPart hc) (rest ++ after)

theorem IsQualified.no_quote (h : IsQualified name) : '"' ∉ name :=
  h.not_mem (by decide) (by decide)

theorem Box.Proper.attributes_not_mem {b : Box} (h : b.Proper) : ']' ∉ b.attributes := by
  simp [Box.attributes, boxKey, labelKey, h.label_not_mem (.inr rfl)]

theorem Box.Proper.onward_attributes {b : Box} (h : b.Proper) (hcs : Onward attributes? cs items) :
    Onward attributes? ('\n' :: b.render.toList ++ cs)
      ((b.name, String.ofList b.attributes) :: items) := by
  have hitem : attributes? (' ' :: '[' :: (b.attributes ++ ']' :: cs)) =
      some (String.ofList b.attributes, cs) :=
    attributes?_brackets (by simp [Box.attributes, boxKey]) h.attributes_not_mem cs
  have hfound := hcs.found h.name.ne_nil h.name.no_quote hitem (attributes?_name h.name _)
  simpa [toList_render] using hfound.plain (s := ['\n']) (by decide)

theorem Box.Proper.onward_target {b : Box} (h : b.Proper) (hcs : Onward target? cs items) :
    Onward target? ('\n' :: b.render.toList ++ cs) items := by
  have hlabel : ∀ after, target? (b.label ++ after) = none := fun after => by
    rw [Box.label, append_assoc]
    exact target?_name h.name _
  have hopen := (hcs.plain (s := [']']) (by decide)).passed (h.label_not_mem (.inl rfl)) rfl
    (hlabel _)
  have hname := (hopen.plain (s := ' ' :: '[' :: (boxKey ++ labelKey)) (by decide)).passed
    h.name.no_quote rfl (target?_name h.name _)
  simpa [toList_render, Box.attributes] using hname.plain (s := ['\n']) (by decide)

theorem onward_target_call (hcaller : IsQualified call.1.toList)
    (hcallee : IsQualified call.2.toList) (hcs : Onward target? cs items) :
    Onward target? ('\n' :: (renderCall call).toList ++ cs) (call :: items) := by
  have hfound := hcs.found hcaller.ne_nil hcaller.no_quote
    (target?_shaft_name hcallee.ne_nil hcallee.no_quote cs) (target?_name hcaller _)
  simpa [toList_renderCall] using hfound.plain (s := ['\n']) (by decide)

theorem onward_attributes_call (hcaller : IsQualified call.1.toList)
    (hcallee : IsQualified call.2.toList) (hcs : Onward attributes? cs items)
    (hnext : attributes? cs = none) :
    Onward attributes? ('\n' :: (renderCall call).toList ++ cs) items := by
  have hshaft := (hcs.passed hcallee.no_quote hnext (attributes?_name hcallee _)).plain
    (s := [' ', '-', '>', ' ']) (by decide)
  have hname := hshaft.passed hcaller.no_quote rfl (attributes?_name hcaller _)
  simpa [toList_renderCall] using hname.plain (s := ['\n']) (by decide)

end

/-! ### The whole drawing -/

/-- Boxes with distinct names, and calls between qualified names. -/
structure Drawing.Proper (d : Drawing) : Prop where
  boxes : ∀ b ∈ d.boxes, b.Proper
  distinct : (d.boxes.map (·.name)).Nodup
  callers : ∀ call ∈ d.calls, IsQualified call.1.toList
  callees : ∀ call ∈ d.calls, IsQualified call.2.toList

/-- The graph that a drawing shows: its boxes in their order, each with the names that it calls and
is called by in the order in which they first appear. -/
def Drawing.graph (d : Drawing) : CallGraph where
  functions := d.boxes.map fun b => (b.name, { b.function with
    calls := (callees d.calls b.name).eraseDups
    calledBy := (callers d.calls b.name).eraseDups })
  missing :=
    ((d.calls.map (·.2)).filter fun name => !(d.boxes.map (·.name)).contains name).eraseDups

section

variable {d : Drawing}

theorem header_no_quote : '"' ∉ "digraph G \x7b".toList := by decide

theorem toList_drawing (d : Drawing) : d.render.toList =
    "digraph G \x7b".toList ++ (d.boxes.flatMap (fun b => '\n' :: b.render.toList) ++
      (d.calls.flatMap (fun call => '\n' :: (renderCall call).toList) ++ ['\n', '\x7d'])) := by
  rw [Drawing.render, append_assoc, append_assoc, singleton_append, toList_join_cons]
  simp [flatMap_append, flatMap_map]

theorem Drawing.Proper.arrows_render (h : d.Proper) : arrows d.render = d.calls := by
  have hcalls := flatMap_lines (P := Onward target?) d.calls
    (fun call => '\n' :: (renderCall call).toList) (fun call => [call])
    (fun call hcall _ _ => onward_target_call (h.callers call hcall) (h.callees call hcall))
    (onward_last (s := ['\n', '\x7d']) (by decide))
  rw [← map_eq_flatMap, map_id', append_nil] at hcalls
  have hboxes := flatMap_passed (P := fun cs => Onward target? cs d.calls) d.boxes
    (fun b => '\n' :: b.render.toList) (fun b hb _ => (h.boxes b hb).onward_target) hcalls
  apply arrows_of_onward
  rw [toList_drawing]
  exact hboxes.plain header_no_quote

/-- The scan for nodes passes over the lines of calls. Behind such a line stands a line feed and
then no bracket. -/
theorem Drawing.Proper.onward_calls (h : d.Proper) :
    Onward attributes?
      (d.calls.flatMap (fun call => '\n' :: (renderCall call).toList) ++ ['\n', '\x7d']) [] := by
  have hcalls := flatMap_passed (P := fun cs => Onward attributes? cs [] ∧ attributes? cs = none)
    d.calls (fun call => '\n' :: (renderCall call).toList)
    (fun call hcall cs hcs => by
      refine ⟨onward_attributes_call (h.callers call hcall) (h.callees call hcall) hcs.1 hcs.2, ?_⟩
      rw [toList_renderCall]
      rfl)
    (⟨onward_last (by decide), rfl⟩ :
      Onward attributes? ['\n', '\x7d'] [] ∧ attributes? ['\n', '\x7d'] = none)
  exact hcalls.1

theorem Drawing.Proper.nodes_render (h : d.Proper) : nodes d.render = d.boxes.map Box.function := by
  have hboxes := flatMap_lines (P := Onward attributes?) d.boxes
    (fun b => '\n' :: b.render.toList) (fun b => [(b.name, String.ofList b.attributes)])
    (fun b hb _ _ => (h.boxes b hb).onward_attributes) h.onward_calls
  rw [← map_eq_flatMap, append_nil] at hboxes
  rw [nodes_of_onward (toList_drawing d ▸ hboxes.plain header_no_quote), filterMap_map,
    ← filterMap_eq_map]
  apply filterMap_congr
  intro b hb
  rw [Function.comp_apply, Function.comp_apply, (h.boxes b hb).box?_attributes]

theorem foldl_addFunction {fs : List Function} (h : (fs.map (·.name)).Nodup) :
    fs.foldl CallGraph.addFunction {} = { functions := fs.map fun f => (f.name, f) } := by
  induction fs using reverseRecOn with
  | nil => rfl
  | append_singleton rest f ih =>
    have hkeys : (Dict.keys ((rest.map fun f => (f.name, f)) ++ [(f.name, f)])).Nodup := by
      simpa [Dict.keys, Function.comp_def] using h
    rw [map_append, nodup_append] at h
    rw [foldl_append, ih h.1, foldl_cons, foldl_nil, CallGraph.addFunction,
      Dict.set_of_get?_eq_none (Dict.get?_of_nodup_append hkeys), map_append]
    rfl

/-- A drawing is read back as the graph that it shows. -/
theorem parse_render_eq_graph (d : Drawing) (h : d.Proper) : parse d.render = d.graph := by
  have hnames : (d.boxes.map Box.function).map (·.name) = d.boxes.map (·.name) := by
    rw [map_map]
    rfl
  have hhas : ∀ name, Dict.has ((d.boxes.map Box.function).map fun f => (f.name, f)) name =
      (d.boxes.map (·.name)).contains name := by
    intro name
    rw [Bool.eq_iff_iff, Dict.has_iff, ← Dict.mem_keys_iff, contains_iff_mem, Dict.keys,
      map_map, map_map]
    rfl
  rw [parse, h.arrows_render, h.nodes_render, foldl_addFunction (hnames ▸ h.distinct),
    foldl_addArrow, Drawing.graph]
  simp only [hhas, addAllNew_nil]
  congr 1
  rw [map_map, map_map]
  apply map_congr_left
  intro b _
  simp [withArrows, addAllNew_nil, Box.function]

end

/-- A destructor and a function that call each other. A name that is not declared calls one of them,
and another one is called twice. -/
def undeclaredEnds : Drawing where
  boxes := [⟨"io::Reader::~Reader", "src/io reader.cpp", 12⟩, ⟨"main", "", 0⟩]
  calls := [("main", "io::open"), ("main", "io::Reader::~Reader"), ("_start", "main"),
    ("io::Reader::~Reader", "main"), ("main", "io::open")]

theorem parse_render_undeclaredEnds :
    undeclaredEnds.Proper ∧
      parse undeclaredEnds.render =
        { functions :=
            [("io::Reader::~Reader",
              { name := "io::Reader::~Reader", filePath := "src/io reader.cpp", lineNumber := 12,
                calls := ["main"], calledBy := ["main"] }),
             ("main",
              { name := "main", filePath := "", lineNumber := 0,
                calls := ["io::open", "io::Reader::~Reader"],
                calledBy := ["_start", "io::Reader::~Reader"] })]
          missing := ["io::open"] } := by
  have hmain : IsQualified "main".toList := .part (by decide +kernel)
  have hstart : IsQualified "_start".toList := .part (by decide +kernel)
  have hopen : IsQualified "io::open".toList :=
    show IsQualified ("io".toList ++ ':' :: ':' :: "open".toList) from
      .join (by decide +kernel) (.part (by decide +kernel))
  have hreader : IsQualified "io::Reader::~Reader".toList :=
    show IsQualified
      ("io".toList ++ ':' :: ':' :: ("Reader".toList ++ ':' :: ':' :: "~Reader".toList)) from
      .join (by decide +kernel) (.join (by decide +kernel) (.part (by decide +kernel)))
  have hproper : undeclaredEnds.Proper := by
    refine ⟨?_, by decide, ?_, ?_⟩
    · simpa [undeclaredEnds] using And.intro (Box.Proper.mk hreader rfl) (Box.Proper.mk hmain rfl)
    · simpa [undeclaredEnds] using ⟨hmain, hstart, hreader, hmain⟩
    · simpa [undeclaredEnds] using ⟨hopen, hreader, hmain, hopen⟩
  exact ⟨hproper, (parse_render_eq_graph undeclaredEnds hproper).trans rfl⟩

end CodeAtlas.Dot
