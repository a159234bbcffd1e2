import CodeAtlas.Finder.Store
import CodeAtlas.Proofs.Fault
import CodeAtlas.Proofs.Finder.Blocks

/-!
# Reading stored functions back

A function is stored with the line of its head, and its text is read back from
the file by that line alone. The text that was cut out when the function was
found begins at the start of the line, so the lines read from there begin with
it. What the reader of lines keeps of them is decided by the first line: it must
hold the opening brace, and no line of the text may end with all braces closed.
A head whose block is opened on a later line is not read back.

The condition is exact (`stored_block_reads_back_iff`).
-/

namespace CodeAtlas.Finder

open Text List

variable {body : List Char} {content : String} {rest : List String}

/-! ### What is stored -/

theorem ok_mem_of_mem_beforeFailure {α : Type} {a : α} {l : List (Except Fault α)}
    (h : a ∈ beforeFailure l) : .ok a ∈ l := by
  induction l with
  | nil => cases h
  | cons x rest ih =>
    cases x with
    | error e => cases h
    | ok b =>
      rcases mem_cons.1 h with rfl | h
      · exact mem_cons_self
      · exact mem_cons_of_mem _ (ih h)

/-- The text of a definition is the block behind a position on its line. -/
structure Definition.IsBlockAt (d : Definition) (content : String) (pos : Nat) : Prop where
  line_eq : d.line = lineAt content pos
  body_eq : d.body = blockBody content pos "\x7b" "\x7d"
  body_ne : d.body ≠ ""

theorem bodyAt_eq_ok {body : String} {lines : List String} {pos : Nat}
    (h : bodyAt content lines pos = .ok body) :
    body = blockBody content pos "\x7b" "\x7d" ∧ body ≠ "" ∨
      indentedBody lines (lineAt content pos) = .ok body := by
  rw [bodyAt] at h
  by_cases hempty : (blockBody content pos "\x7b" "\x7d").isEmpty = true
  · rw [if_pos hempty] at h
    exact .inr h
  · rw [if_neg hempty] at h
    cases h
    refine .inl ⟨rfl, ?_⟩
    rwa [String.isEmpty_iff] at hempty

theorem identified_eq_ok {hp : HeadPattern} {path id : String} {m : Match} {d : Definition}
    (h : identified hp path content m = .ok (id, d)) :
    d.file = path ∧ d.line = lineAt content m.start ∧
      (d.body = "" ∨ bodyAt content (split content "\n") m.start = .ok d.body) := by
  obtain ⟨name, -, h⟩ := exists_of_bind_eq_ok h
  dsimp only at h
  by_cases hlook : (occursIn "\x7b" m.whole || occursIn ":" m.whole) = true
  · rw [if_pos hlook] at h
    obtain ⟨body, hbody, h⟩ := exists_of_bind_eq_ok h
    cases h
    exact ⟨rfl, rfl, .inr hbody⟩
  · rw [if_neg hlook] at h
    cases h
    exact ⟨rfl, rfl, .inl rfl⟩

theorem body_of_mem_identifiedIn {path id : String} {d : Definition}
    (h : (id, d) ∈ identifiedIn path content) :
    d.file = path ∧ (d.body = "" ∨ indentedBody (split content "\n") d.line = .ok d.body ∨
      ∃ pos, d.IsBlockAt content pos) := by
  have hok := ok_mem_of_mem_beforeFailure h
  obtain ⟨hp, -, hmatch⟩ := mem_flatMap.1 hok
  obtain ⟨m, -, hm⟩ := mem_map.1 hmatch
  obtain ⟨hfile, hline, hbody⟩ := identified_eq_ok hm
  refine ⟨hfile, ?_⟩
  rcases hbody with hbody | hbody
  · exact .inl hbody
  · rcases bodyAt_eq_ok hbody with ⟨hblock, hne⟩ | hindented
    · exact .inr (.inr ⟨m.start, hline, hblock, hne⟩)
    · rw [← hline] at hindented
      exact .inr (.inl hindented)

/-! ### What is read back -/

/-- The lines begin with a text that is read back from them. -/
inductive ReadsBack (body : List Char) : List String → Prop
  /-- A brace is opened on the first line, and no line of the text ends with all braces closed. -/
  | braced {first : String} {rest : List String} (opened : '\x7b' ∈ first.toList)
      (unclosed : ∀ x, x ++ ['\n'] <+: body → '\x7b' ∈ x → net x ≠ 0) :
      ReadsBack body (first :: rest)
  /-- The first line looks like the head of a function defined by indentation, and the other lines
  of the text are indented deeper. -/
  | indented {first : String} {rest : List String} (unopened : '\x7b' ∉ first.toList)
      (headed : startsWith (strip first) "def " = true) (colon : occursIn ":" first = true)
      (deeper : ∀ l ∈ rest.take (body.count '\n'), isFiller l = true ∨ indent first < indent l) :
      ReadsBack body (first :: rest)

theorem readsBack_iff_of_open {first : String} (hopen : '\x7b' ∈ first.toList) :
    ReadsBack body (first :: rest) ↔ ∀ x, x ++ ['\n'] <+: body → '\x7b' ∈ x → net x ≠ 0 := by
  constructor
  · intro h
    cases h with
    | braced _ hunclosed => exact hunclosed
    | indented hunopened => exact absurd hopen hunopened
  · exact .braced hopen

theorem readsBack_iff_of_not_open {first : String} (hopen : '\x7b' ∉ first.toList) :
    ReadsBack body (first :: rest) ↔
      startsWith (strip first) "def " = true ∧ occursIn ":" first = true ∧
        ∀ l ∈ rest.take (body.count '\n'), isFiller l = true ∨ indent first < indent l := by
  constructor
  · intro h
    cases h with
    | braced hopened => exact absurd hopened hopen
    | indented _ hheaded hcolon hdeeper => exact ⟨hheaded, hcolon, hdeeper⟩
  · rintro ⟨hheaded, hcolon, hdeeper⟩
    exact .indented hopen hheaded hcolon hdeeper

theorem strip_isInfix (s : String) : (strip s).toList <:+: s.toList := by
  have hend : ((s.toList.dropWhile isBlank).reverse.dropWhile isBlank).reverse <+:
      s.toList.dropWhile isBlank := by
    rw [← reverse_suffix, reverse_reverse]
    exact dropWhile_suffix isBlank
  rw [strip, String.toList_ofList, trimList]
  exact hend.isInfix.trans (dropWhile_suffix isBlank).isInfix

theorem occursIn_of_startsWith_strip {s p : String} (h : startsWith (strip s) p = true) :
    occursIn p s = true := by
  rw [startsWith, startsWithList_iff] at h
  rw [occursIn_iff]
  exact h.isInfix.trans (strip_isInfix s)

theorem occursIn_open_iff {s : String} : occursIn "\x7b" s = true ↔ '\x7b' ∈ s.toList := by
  rw [occursIn, Option.isSome_iff_ne_none, ne_eq, not_iff_comm]
  exact findList?_eq_none_iff.symm

section

variable {lines : List String} {first : String} {k : Nat}
  (hdrop : lines.drop k = first :: rest)

include hdrop

theorem lt_length_of_drop : k < lines.length := by
  by_contra hk
  rw [drop_eq_nil_of_le (by omega)] at hdrop
  cases hdrop

theorem nth_of_drop : Positions.nth lines k = .ok first := by
  have hget : lines[k]? = some first := by
    rw [← head?_drop, hdrop]
    rfl
  have hnth : Positions.nth? lines k = some first := by
    rw [Positions.nth?, if_pos (by omega), Int.toNat_natCast, hget]
  rw [Positions.nth, hnth]

theorem onwards_of_drop : Positions.onwards lines k = .ok (first :: rest) := by
  rw [Positions.onwards, if_pos (by omega), Int.toNat_natCast, hdrop]

theorem bodyAtLine_of_open (hopen : '\x7b' ∈ first.toList) :
    bodyAtLine lines k = .ok (join "\n" (bracedLines (0, false) (first :: rest))) := by
  have hlt := lt_length_of_drop hdrop
  rw [bodyAtLine, if_neg (by omega), nth_of_drop hdrop]
  change (if occursIn "\x7b" first = true then bracedBody lines k else _) = _
  rw [if_pos (occursIn_open_iff.2 hopen), bracedBody, onwards_of_drop hdrop]
  rfl

theorem bodyAtLine_of_not_open (hopen : '\x7b' ∉ first.toList) :
    bodyAtLine lines k = if (occursIn "def " first && occursIn ":" first) = true then
      indentedBody lines (k + 1) else .ok "" := by
  have hlt := lt_length_of_drop hdrop
  rw [bodyAtLine, if_neg (by omega), nth_of_drop hdrop]
  change (if occursIn "\x7b" first = true then bracedBody lines k else _) = _
  rw [if_neg (mt occursIn_open_iff.1 hopen)]
  rfl

theorem indentedBody_of_drop :
    indentedBody lines (k + 1) = .ok (if startsWith (strip first) "def " = true then
      join "\n" (first :: rest.takeWhile fun l => isFiller l || indent first < indent l)
      else "") := by
  have hlt := lt_length_of_drop hdrop
  have hrest : Positions.onwards lines (k + 1) = .ok rest := by
    rw [Positions.onwards, if_pos (by omega), Int.toNat_natCast_add_one, ← tail_drop, hdrop,
      tail_cons]
  rw [indentedBody, if_neg (by omega), Int.add_sub_cancel, nth_of_drop hdrop, hrest]
  simp only [bind, Except.bind, pure, Except.pure]
  by_cases hhead : startsWith (strip first) "def " = true
  · rw [if_neg (by simp [hhead]), if_pos hhead]
  · rw [if_pos (by simpa using hhead), if_neg hhead]

/-- What is read at a line begins with a text that stands there if the text can be read back. -/
theorem exists_bodyAtLine (hlines : ∀ l ∈ first :: rest, '\n' ∉ l.toList)
    (hbody : body <+: (join "\n" (first :: rest)).toList) (hne : body ≠ []) :
    ∃ text, bodyAtLine lines k = .ok text ∧
      (body <+: text.toList ↔ ReadsBack body (first :: rest)) := by
  have hempty : ¬ body <+: "".toList := by
    intro h
    exact hne (prefix_nil.1 h)
  by_cases hopen : '\x7b' ∈ first.toList
  · refine ⟨_, bodyAtLine_of_open hdrop hopen, ?_⟩
    rw [prefix_bracedLines_iff hlines _ hbody, readsBack_iff_of_open hopen]
    simp [Settled]
  · rw [bodyAtLine_of_not_open hdrop hopen, readsBack_iff_of_not_open hopen]
    by_cases hlook : (occursIn "def " first && occursIn ":" first) = true
    · rw [if_pos hlook, indentedBody_of_drop hdrop]
      refine ⟨_, rfl, ?_⟩
      have hcolon : occursIn ":" first = true := (Bool.and_eq_true_iff.1 hlook).2
      by_cases hhead : startsWith (strip first) "def " = true
      · rw [if_pos hhead, prefix_takeWhile_iff hlines hbody]
        simp [hhead, hcolon]
      · rw [if_neg hhead]
        simp [hhead, hne]
    · rw [if_neg hlook]
      refine ⟨_, rfl, iff_of_false hempty ?_⟩
      rintro ⟨hhead, hcolon, -⟩
      exact hlook (by simp [occursIn_of_startsWith_strip hhead, hcolon])

end

/-! ### Blocks that are read back -/

/-- A block that is opened on the first line, with at least as many braces opened as closed in front
of it, is read back. -/
theorem readsBack_of_closes {head block : List Char} {first : String}
    (hhead : '\n' ∉ head) (hnet : 0 ≤ net head) (hblock : Closes 1 block)
    (hopen : '\x7b' ∈ first.toList) : ReadsBack (head ++ '\x7b' :: block) (first :: rest) := by
  refine .braced hopen ?_
  intro x hx _
  have hfront : '\n' ∉ head ++ ['\x7b'] := by simpa using hhead
  have hx' : x ++ ['\n'] <+: (head ++ ['\x7b']) ++ block := by simpa using hx
  obtain ⟨y, rfl, hy⟩ := exists_of_prefix_feed hfront hx'
  have hlevel := hblock.pos_of_feed hy
  rw [net_append, net_append, net_open]
  omega

namespace Definition.IsBlockAt

variable {d : Definition} {pos : Nat}

theorem body_prefix_fromLine (h : d.IsBlockAt content pos) :
    d.body.toList <+: fromLine content.toList pos := by
  have hne := h.body_ne
  rw [h.body_eq] at hne ⊢
  obtain ⟨gap, block, rest, ⟨hdrop, -, -⟩, hbody⟩ := blockBody_spec hne
  rw [hbody, fromLine, hdrop]
  exact ⟨rest, by simp⟩

theorem readsBack {i : Nat} {first : String} (h : d.IsBlockAt content pos)
    (hi : findFrom? "\x7b" content pos = some i) (hline : lineAt content i = d.line)
    (hnet : 0 ≤ net (lineHead content.toList i))
    (hlines : (join "\n" (first :: rest)).toList = fromLine content.toList pos) :
    ReadsBack d.body.toList (first :: rest) := by
  have hne := h.body_ne
  rw [h.body_eq] at hne ⊢
  obtain ⟨gap, block, rest', ⟨hdrop, hgap, hblock⟩, hbody⟩ := blockBody_spec hne
  obtain rfl : pos + gap.length = i := Option.some.inj ((findFrom?_open hdrop hgap).symm.trans hi)
  have hfeed : '\n' ∉ gap := by
    rw [h.line_eq, lineAt, lineAt, take_add, hdrop, take_left, count_append] at hline
    rw [← count_eq_zero]
    omega
  rw [lineHead_add hdrop hfeed] at hnet
  have hhead : '\n' ∉ lineHead content.toList pos ++ gap := by
    simp [feed_not_mem_lineHead, hfeed]
  rw [hbody]
  refine readsBack_of_closes hhead hnet hblock ?_
  have hprefix : lineHead content.toList pos ++ gap ++ ['\x7b'] <+:
      (join "\n" (first :: rest)).toList := by
    rw [hlines, fromLine, hdrop]
    exact ⟨block ++ rest', by simp⟩
  exact (prefix_line_of_prefix_join (by simpa using hhead) hprefix).subset (by simp)

end Definition.IsBlockAt

/-- A text cut out by braces is read back at the line it is stored with exactly if the lines there
allow it. They do if the block is opened on that line, behind no closing brace too many. -/
theorem stored_block_reads_back_iff {path content id : String} {d : Definition}
    (h : (id, d) ∈ identifiedIn path content) :
    (d.body = "" ∨ indentedBody (split content "\n") d.line = .ok d.body ∨
      ∃ pos, d.IsBlockAt content pos) ∧
    ∀ pos, d.IsBlockAt content pos →
      ∃ text, bodyAtLine (split content "\n") (d.line - 1) = .ok text ∧
        (∀ t : FileTree, t.readTextLoosely path = .ok content →
          storedBody t (.str d.file) (.int d.line) = text) ∧
        (d.body.toList <+: text.toList ↔
          ReadsBack d.body.toList ((split content "\n").drop (d.line - 1))) ∧
        ∀ i, findFrom? "\x7b" content pos = some i → lineAt content i = d.line →
          0 ≤ net (lineHead content.toList i) → d.body.toList <+: text.toList := by
  obtain ⟨hfile, hclass⟩ := body_of_mem_identifiedIn h
  refine ⟨hclass, ?_⟩
  intro pos hblock
  obtain ⟨first, rest, hdrop, hjoin, hlines⟩ := exists_lines_at content pos
  have hindex : d.line - 1 = (content.toList.take pos).count '\n' := by
    rw [hblock.line_eq, lineAt, Nat.add_sub_cancel]
  have hindex' : (d.line : Int) - 1 = ((content.toList.take pos).count '\n' : Nat) := by
    rw [hblock.line_eq, lineAt]
    omega
  have hne : d.body.toList ≠ [] := by
    simpa using hblock.body_ne
  have hbody := hblock.body_prefix_fromLine
  rw [← hjoin] at hbody
  obtain ⟨text, htext, hiff⟩ := exists_bodyAtLine hdrop hlines hbody hne
  rw [hindex, hdrop, hindex']
  refine ⟨text, htext, ?_, hiff, ?_⟩
  · intro t ht
    rw [hfile, storedBody, ht, hindex']
    simp only [Except.bind, htext]
  · intro i hi hline hnet
    exact hiff.2 (hblock.readsBack hi hline hnet hjoin)

/-- A function behind a variable, its block opened on the line of its head. -/
def openedOnLine : String := "int n;\nint f() \x7b\n  if (n) \x7b\x7d\n\x7d\n"

def storedOnLine : Definition := ⟨"f", "a.c", 2, "int f() \x7b\n  if (n) \x7b\x7d\n\x7d"⟩

theorem stored_block_reads_back_opened_on_line :
    ("f_a.c_2", storedOnLine) ∈ identifiedIn "a.c" openedOnLine ∧
      storedOnLine.IsBlockAt openedOnLine 7 ∧
      ∃ text, bodyAtLine (split openedOnLine "\n") 1 = .ok text ∧
        storedOnLine.body.toList <+: text.toList := by
  have hstored : ("f_a.c_2", storedOnLine) ∈ identifiedIn "a.c" openedOnLine := by decide +kernel
  have hblock : storedOnLine.IsBlockAt openedOnLine 7 :=
    ⟨by decide +kernel, by decide +kernel, by decide +kernel⟩
  obtain ⟨-, hread⟩ := stored_block_reads_back_iff hstored
  obtain ⟨text, htext, -, -, hopened⟩ := hread 7 hblock
  exact ⟨hstored, hblock, text, htext,
    hopened 15 (by decide +kernel) (by decide +kernel) (by decide +kernel)⟩

/-- A function whose block is opened below its head. -/
def openedBelow : String := "int f()\n\x7b\n  return 1;\n\x7d"

def storedBelow : Definition := ⟨"f", "a.c", 1, openedBelow⟩

theorem stored_block_opened_below_reads_nothing :
    ("f_a.c_1", storedBelow) ∈ identifiedIn "a.c" openedBelow ∧
      storedBelow.IsBlockAt openedBelow 0 ∧
      bodyAtLine (split openedBelow "\n") 0 = .ok "" ∧
      ¬ storedBelow.body.toList <+: "".toList := by
  refine ⟨by decide +kernel, ⟨by decide +kernel, by decide +kernel, by decide +kernel⟩, ?_,
    by decide +kernel⟩
  exact bodyAtLine_of_not_open (k := 0) rfl (by decide +kernel)

end CodeAtlas.Finder
