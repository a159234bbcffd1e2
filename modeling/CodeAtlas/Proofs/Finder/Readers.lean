import CodeAtlas.Description.Related
import CodeAtlas.Proofs.FileTree
import CodeAtlas.Proofs.Finder.ReadBack
import CodeAtlas.Proofs.Session
import Mathlib.Data.List.TakeDrop

/-!
# Agreement of the readers of blocks

Three readers cut the text of a function out of a file: `blockBody` goes through
the characters behind a position, `bracedLines` through the lines of a text cut
at its line feeds, and `Description.throughBraces` through a window of the lines
of a file with their line feeds.

The reader of lines keeps whole lines up to the first one behind which the text
is balanced, or all of them. Where no brace stands on the line in front of a
block, no line that ends inside of the block is balanced, so what the reader of
characters cuts out is a beginning of what the reader of lines keeps
(`blockBody_prefix_bracedBody`). The reader of the window is the reader of lines
on other lines: a line feed opens and closes nothing, so both stop at the same
line, and the window does not matter if it reaches that line
(`functionText_eq_bracedBody`).

The reader of characters by itself cuts out the shortest balanced text behind the
first brace (`blockBody_ne_empty_iff`).
-/

namespace CodeAtlas.Text

open List

theorem toList_join_append {front rest : List String} (hfront : front ≠ []) (hrest : rest ≠ []) :
    (join "\n" (front ++ rest)).toList =
      (join "\n" front).toList ++ '\n' :: (join "\n" rest).toList := by
  obtain ⟨line, front, rfl⟩ := exists_cons_of_ne_nil hfront
  obtain ⟨next, rest, rfl⟩ := exists_cons_of_ne_nil hrest
  rw [cons_append, toList_join_cons, toList_join_cons, toList_join_cons, flatMap_append,
    flatMap_cons, cons_append, append_assoc]

theorem take_append_prefix_iff {α : Type} {a : α} {l : List α} {n : Nat} :
    l.take n ++ [a] <+: l ↔ l[n]? = some a := by
  induction l generalizing n with
  | nil => simp
  | cons b l ih =>
    cases n with
    | zero => simp [eq_comm]
    | succ n => simp [ih]

theorem slice_eq_empty (content : String) {i j : Nat} (h : j ≤ i) : slice content i j = "" := by
  rw [slice, Nat.sub_eq_zero_of_le h]
  rfl

/-! ### Starts and ends of lines -/

def IsLineEnd (content : String) (e : Nat) : Prop :=
  e = content.toList.length ∨ content.toList[e]? = some '\n'

theorem StartsLine.drop_eq {content : String} {pos s : Nat} (h : StartsLine content pos s) :
    content.toList.drop s = fromLine content.toList pos := by
  rw [fromLine, h.lineHead_eq, toList_slice]
  conv_rhs => rw [← Nat.add_sub_cancel' h.le, ← drop_drop, Nat.add_sub_cancel_left]
  rw [take_append_drop]

theorem isLineEnd_iff {content : String} {s e : Nat} (hs : s ≤ e)
    (he : e ≤ content.toList.length) :
    IsLineEnd content e ↔ (slice content s e).toList = content.toList.drop s ∨
      (slice content s e).toList ++ ['\n'] <+: content.toList.drop s := by
  rw [IsLineEnd, toList_slice, take_append_prefix_iff, getElem?_drop,
    Nat.add_sub_cancel' hs, take_eq_self_iff, length_drop]
  exact or_congr_left (by omega)

end CodeAtlas.Text

namespace CodeAtlas.Finder

open Text List

variable {text : String} (state : Int × Bool) (lines : List String)

/-! ### Where the reader of lines stops -/

/-- A brace is opened in the text, and as many are closed as are opened. -/
def Balanced (text : String) : Prop :=
  '\x7b' ∈ text.toList ∧ countChar text '\x7b' = countChar text '\x7d'

theorem settled_iff_balanced : Settled (0, false) text.toList ↔ Balanced text := by
  have hnet : 0 + net text.toList = 0 ↔ countChar text '\x7b' = countChar text '\x7d' := by
    rw [net, countChar, countChar]
    omega
  rw [Settled, hnet]
  simp [Balanced]

theorem bracedLines_isPrefix : bracedLines state lines <+: lines := by
  induction lines generalizing state with
  | nil => exact prefix_refl []
  | cons line rest ih =>
    rw [bracedLines_cons, prefix_cons_inj]
    split
    · exact nil_prefix
    · exact ih _

theorem bracedLines_ne_nil (line : String) (rest : List String) :
    bracedLines state (line :: rest) ≠ [] :=
  bracedLines_cons state line rest ▸ cons_ne_nil line _

theorem settled_or_bracedLines_eq :
    Settled state (join "\n" (bracedLines state lines)).toList ∨
      bracedLines state lines = lines := by
  induction lines generalizing state with
  | nil => exact .inr rfl
  | cons line rest ih =>
    rw [bracedLines_cons]
    by_cases h : Settled state line.toList
    · rw [if_pos h, toList_join_cons, flatMap_nil, append_nil]
      exact .inl h
    · rw [if_neg h]
      cases rest with
      | nil => exact .inr rfl
      | cons next rest =>
        refine (ih (braceBalance state line)).imp ?_ (congrArg (line :: ·))
        intro hkept
        rw [← singleton_append, toList_join_append (cons_ne_nil _ _) (bracedLines_ne_nil _ _ _),
          toList_join_cons, flatMap_nil, append_nil]
        exact settled_append_iff.2 hkept

section

variable (line : String) (rest : List String)

theorem join_bracedLines_cases :
    (join "\n" (bracedLines state (line :: rest))).toList = (join "\n" (line :: rest)).toList ∨
      (join "\n" (bracedLines state (line :: rest))).toList ++ ['\n'] <+:
        (join "\n" (line :: rest)).toList := by
  obtain ⟨more, hmore⟩ := bracedLines_isPrefix state (line :: rest)
  by_cases hnil : more = []
  · rw [hnil, append_nil] at hmore
    exact .inl (by rw [hmore])
  · refine .inr ⟨(join "\n" more).toList, ?_⟩
    conv_rhs => rw [← hmore]
    rw [toList_join_append (bracedLines_ne_nil _ _ _) hnil, append_assoc]
    rfl

theorem join_bracedLines_isPrefix :
    (join "\n" (bracedLines state (line :: rest))).toList <+:
      (join "\n" (line :: rest)).toList := by
  rcases join_bracedLines_cases state line rest with h | h
  · exact ⟨[], (append_nil _).trans h⟩
  · exact (prefix_append _ _).trans h

variable {line rest}

theorem not_settled_of_feed (hlines : ∀ l ∈ line :: rest, '\n' ∉ l.toList) {x : List Char}
    (hx : x ++ ['\n'] <+: (join "\n" (bracedLines state (line :: rest))).toList) :
    ¬ Settled state x := by
  apply (prefix_bracedLines_iff hlines state (join_bracedLines_isPrefix state line rest)).1 _ x hx
  exact prefix_refl _

end

/-! ### The reader of characters and the reader of lines -/

def Braceless (text : String) : Prop := '\x7b' ∉ text.toList ∧ '\x7d' ∉ text.toList

theorem Braceless.net_eq_zero (h : Braceless text) : net text.toList = 0 := by
  rw [net, count_eq_zero_of_not_mem h.1, count_eq_zero_of_not_mem h.2]
  rfl

theorem Braceless.settled_append_iff (h : Braceless text) (x : List Char) :
    Settled (0, false) (text.toList ++ x) ↔ Settled (0, false) x := by
  simp [Settled, h.1, h.net_eq_zero]

/-- Behind a text without braces, no line ends inside of a block with all braces closed. -/
theorem not_settled_of_closes {block x : List Char} (htext : Braceless text)
    (hblock : Closes 1 block) (hx : x ++ ['\n'] <+: text.toList ++ '\x7b' :: block) :
    ¬ Settled (0, false) x := by
  have hshort : x <+: text.toList → ¬ Settled (0, false) x := by
    rintro hprefix ⟨hopen, -⟩
    exact htext.1 (List.IsPrefix.subset hprefix (by simpa using hopen))
  rcases prefix_or_prefix_of_prefix ((prefix_append x ['\n']).trans hx)
    (prefix_append _ _) with h | ⟨y, rfl⟩
  · exact hshort h
  · rw [htext.settled_append_iff]
    rw [append_assoc, prefix_append_right_inj] at hx
    cases y with
    | nil => simp [Settled]
    | cons c y =>
      rw [cons_append, cons_prefix_cons] at hx
      obtain ⟨rfl, hy⟩ := hx
      have hlevel := hblock.pos_of_feed hy
      rintro ⟨-, hclosed⟩
      rw [net_cons, net_open] at hclosed
      omega

/-- A text from the start `s` of a line to `e` ends with the first line behind which the text from
`b` on is balanced, or with the whole text. -/
structure EndsBalanced (content : String) (s b e : Nat) : Prop where
  line_end : IsLineEnd content e
  balanced : Balanced (slice content b e) ∨ e = content.toList.length
  first : ∀ i, s ≤ i → i < e → IsLineEnd content i → ¬ Balanced (slice content b i)

theorem blockBody_boundary {content : String} {start : Int} :
    blockBody content (Positions.boundary content.toList.length start) "\x7b" "\x7d" =
      blockBody content start "\x7b" "\x7d" := by
  have hle := Positions.boundary_le content.toList.length start
  rw [blockBody, blockBody, Positions.boundary_of_le hle, if_neg (by omega)]
  by_cases hstart : (content.toList.length : Int) < start
  · have hend : Positions.boundary content.toList.length start = content.toList.length := by
      rw [Positions.boundary, if_neg (by omega)]
      omega
    have hfind : findFrom? "\x7b" content content.toList.length = none := by
      rw [findFrom?, drop_length]
      rfl
    rw [if_pos hstart, hend, hfind]
  · rw [if_neg hstart]

section

variable {content : String} {pos s b : Nat} {first : String} {rest : List String}

theorem settled_slice_iff (hclear : Braceless (slice content s b)) (hsb : s ≤ b) {i : Nat}
    (hi : s ≤ i) :
    Settled (0, false) (slice content s i).toList ↔ Balanced (slice content b i) := by
  rcases Nat.le_total i b with hib | hbi
  · have hopen : '\x7b' ∉ (slice content s i).toList := by
      intro hmem
      apply hclear.1
      rw [toList_slice_append content hi hib]
      exact mem_append_left _ hmem
    rw [slice_eq_empty content hib]
    simp [Settled, Balanced, hopen]
  · rw [toList_slice_append content hsb hbi, hclear.settled_append_iff, settled_iff_balanced]

/-- What the reader of lines keeps goes from the start of its first line to the first end of a line
where the text is balanced. -/
theorem exists_endsBalanced (hclear : Braceless (slice content s b)) (hsb : s ≤ b)
    (hs : s ≤ content.toList.length)
    (hjoin : (join "\n" (first :: rest)).toList = content.toList.drop s)
    (hlines : ∀ l ∈ first :: rest, '\n' ∉ l.toList) :
    ∃ e, join "\n" (bracedLines (0, false) (first :: rest)) = slice content s e ∧
      EndsBalanced content s b e := by
  have hcases := join_bracedLines_cases (0, false) first rest
  have hkept := join_bracedLines_isPrefix (0, false) first rest
  rw [hjoin] at hcases hkept
  have hfirst := fun x => not_settled_of_feed (0, false) hlines (x := x)
  have hstop := settled_or_bracedLines_eq (0, false) (first :: rest)
  generalize htext : join "\n" (bracedLines (0, false) (first :: rest)) = text at *
  have hlen := hkept.length_le
  rw [length_drop] at hlen
  have hslice : text = slice content s (s + text.toList.length) := by
    rw [← String.toList_inj, toList_slice, Nat.add_sub_cancel_left]
    exact prefix_iff_eq_take.1 hkept
  refine ⟨s + text.toList.length, hslice, ?_, ?_, ?_⟩
  · rw [isLineEnd_iff (Nat.le_add_right _ _) (by omega), ← hslice]
    exact hcases
  · rw [← settled_slice_iff hclear hsb (Nat.le_add_right _ _), ← hslice]
    refine hstop.imp_right ?_
    intro hall
    rw [hall] at htext
    rw [← htext, hjoin, length_drop]
    omega
  · intro i hsi hi hend
    rw [← settled_slice_iff hclear hsb hsi]
    apply hfirst
    -- a line that ends inside of the text has its line feed there
    have hfeed : (slice content s i).toList ++ ['\n'] <+: content.toList.drop s := by
      rw [toList_slice, take_append_prefix_iff, getElem?_drop, Nat.add_sub_cancel' hsi]
      exact hend.resolve_left (by omega)
    apply prefix_of_prefix_length_le hfeed hkept
    rw [toList_slice, length_append, length_take, length_singleton]
    omega

/-- A text cut out by characters behind a piece of a line without braces is kept by the reader of
lines. -/
theorem blockBody_prefix_bracedLines (hs : StartsLine content pos s)
    (hb : findFrom? "\x7b" content pos = some b) (hclear : Braceless (slice content s b))
    (hbody : blockBody content pos "\x7b" "\x7d" ≠ "")
    (hjoin : (join "\n" (first :: rest)).toList = fromLine content.toList pos)
    (hlines : ∀ l ∈ first :: rest, '\n' ∉ l.toList) :
    (blockBody content pos "\x7b" "\x7d").toList <+:
      (join "\n" (bracedLines (0, false) (first :: rest))).toList := by
  obtain ⟨gap, block, rest', ⟨hdrop, hgap, hblock⟩, hcut⟩ := blockBody_spec hbody
  obtain rfl : pos + gap.length = b := Option.some.inj ((findFrom?_open hdrop hgap).symm.trans hb)
  have hfront : lineHead content.toList pos ++ gap =
      (slice content s (pos + gap.length)).toList := by
    rw [toList_slice_append content hs.le (Nat.le_add_right _ _), hs.lineHead_eq,
      toList_slice_gap hdrop]
  rw [prefix_bracedLines_iff hlines]
  · intro x hx
    rw [hcut, hfront] at hx
    exact not_settled_of_closes hclear hblock hx
  · rw [hjoin, hcut, fromLine, hdrop]
    exact ⟨rest', by simp⟩

end

/-- If no brace stands between the start of the line of a position and the first opening brace
behind the position, the text cut out by characters is a beginning of the one cut out by lines. That
one ends with the first line behind which the braces are balanced. -/
theorem blockBody_prefix_bracedBody {content : String} {start : Int} {pos s b : Nat}
    (hpos : pos = Positions.boundary content.toList.length start)
    (hs : StartsLine content pos s) (hb : findFrom? "\x7b" content pos = some b)
    (hclear : Braceless (slice content s b))
    (hbody : blockBody content start "\x7b" "\x7d" ≠ "") :
    ∃ text e,
      bracedBody (split content "\n") ((content.toList.take pos).count '\n' : Nat) = .ok text ∧
      (blockBody content start "\x7b" "\x7d").toList <+: text.toList ∧
      text = slice content s e ∧ EndsBalanced content s b e := by
  have hsame : blockBody content pos "\x7b" "\x7d" = blockBody content start "\x7b" "\x7d" := by
    rw [hpos]
    exact blockBody_boundary
  have hlen : s ≤ content.toList.length := by
    rw [hpos] at hs
    exact hs.le.trans (Positions.boundary_le _ _)
  have hsb : s ≤ b := by
    obtain ⟨n, -, rfl⟩ := Option.map_eq_some_iff.1 hb
    exact hs.le.trans (Nat.le_add_left _ _)
  obtain ⟨first, rest, hdrop, hjoin, hlines⟩ := exists_lines_at content pos
  have hkept : bracedBody (split content "\n") ((content.toList.take pos).count '\n' : Nat) =
      .ok (join "\n" (bracedLines (0, false) (first :: rest))) := by
    rw [bracedBody, onwards_of_drop hdrop]
    rfl
  obtain ⟨e, htext, he⟩ :=
    exists_endsBalanced hclear hsb hlen (hjoin.trans hs.drop_eq.symm) hlines
  rw [← hsame] at hbody ⊢
  exact ⟨_, e, hkept, blockBody_prefix_bracedLines hs hb hclear hbody hjoin hlines, htext, he⟩

/-- A function whose head stands above its block, and another one that is opened on the line where
the first one is closed. -/
def twoOnLine : String := "n;\nf()\n\x7b \x7b\x7d\n\x7d g() \x7b\n\x7d\n"

theorem blockBody_prefix_bracedBody_two_on_line :
    StartsLine twoOnLine 5 3 ∧ findFrom? "\x7b" twoOnLine 5 = some 7 ∧
      Braceless (slice twoOnLine 3 7) ∧ blockBody twoOnLine 5 "\x7b" "\x7d" ≠ "" ∧
      ∃ text e, bracedBody (split twoOnLine "\n") 1 = .ok text ∧
        (blockBody twoOnLine 5 "\x7b" "\x7d").toList <+: text.toList ∧
        text = slice twoOnLine 3 e ∧ EndsBalanced twoOnLine 3 7 e := by
  have hline : StartsLine twoOnLine 5 3 :=
    ⟨by decide, .inr ⟨"n;".toList, by decide +kernel⟩, by decide +kernel⟩
  have hopen : findFrom? "\x7b" twoOnLine 5 = some 7 := by decide +kernel
  have hclear : Braceless (slice twoOnLine 3 7) := ⟨by decide +kernel, by decide +kernel⟩
  have hbody : blockBody twoOnLine 5 "\x7b" "\x7d" ≠ "" := by decide +kernel
  have hpos : 5 = Positions.boundary twoOnLine.toList.length 5 := by decide +kernel
  have hcount : (twoOnLine.toList.take 5).count '\n' = 1 := by decide +kernel
  obtain ⟨text, e, htext, hrest⟩ := blockBody_prefix_bracedBody hpos hline hopen hclear hbody
  rw [hcount] at htext
  exact ⟨hline, hopen, hclear, hbody, text, e, htext, hrest⟩

/-! ### The first block -/

section

variable {content : String} {pos b : Nat} {gap block after : List Char}

/-- The first opening brace from a position on stands at `b`. -/
structure FirstOpen (content : String) (pos b : Nat) : Prop where
  le : pos ≤ b
  opens : content.toList[b]? = some '\x7b'
  first : '\x7b' ∉ (slice content pos b).toList

theorem firstOpen_of_drop (hdrop : content.toList.drop pos = gap ++ '\x7b' :: after)
    (hgap : '\x7b' ∉ gap) : FirstOpen content pos (pos + gap.length) where
  le := Nat.le_add_right _ _
  opens := by rw [← head?_drop, drop_gap hdrop, head?_cons]
  first := by rwa [toList_slice_gap hdrop]

theorem FirstOpen.exists_drop (h : FirstOpen content pos b) :
    ∃ gap after, content.toList.drop pos = gap ++ '\x7b' :: after ∧ '\x7b' ∉ gap ∧
      b = pos + gap.length := by
  have hdrop : content.toList.drop b = '\x7b' :: content.toList.drop (b + 1) :=
    drop_eq_getElem?_toList_append.trans (by rw [h.opens]; rfl)
  have hb : b < content.toList.length := (List.getElem?_eq_some_iff.1 h.opens).1
  refine ⟨_, content.toList.drop (b + 1), ?_, h.first, ?_⟩
  · rw [← hdrop, toList_slice]
    conv_rhs => rw [← Nat.add_sub_cancel' h.le, ← drop_drop, Nat.add_sub_cancel_left]
    rw [take_append_drop]
  · rw [toList_slice, length_take, length_drop]
    have hle := h.le
    omega

/-- A text that comes down to level 0 somewhere has a beginning that does so at its end only. -/
theorem exists_closes {depth : Nat} (cs : List Char) (n : Nat) (h : depth + net (cs.take n) = 0) :
    ∃ block rest, cs = block ++ rest ∧ Closes depth block ∧ block.length ≤ n := by
  induction cs generalizing depth n with
  | nil =>
    obtain rfl : depth = 0 := by simpa using h
    exact ⟨[], [], rfl, closes_zero_iff.2 rfl, Nat.zero_le _⟩
  | cons c cs ih =>
    cases depth with
    | zero => exact ⟨[], c :: cs, rfl, closes_zero_iff.2 rfl, Nat.zero_le _⟩
    | succ depth =>
      cases n with
      | zero =>
        rw [take_zero, net_nil] at h
        omega
      | succ n =>
        obtain ⟨depth', hdepth', -⟩ := blockLength?_cons depth c cs
        rw [take_succ_cons, net_cons] at h
        have hlevel : depth' + net (cs.take n) = 0 := by omega
        obtain ⟨block, rest, rfl, hblock, hlen⟩ := ih n hlevel
        refine ⟨c :: block, rest, rfl, (closes_cons_iff (by omega) c block).2 ?_, ?_⟩
        · rwa [Int.natCast_add, Int.natCast_one, ← hdepth']
        · exact Nat.succ_le_succ hlen

theorem Closes.exists_concat (h : Closes 1 block) : ∃ inner, block = inner ++ ['\x7d'] := by
  rcases eq_nil_or_concat' block with rfl | ⟨inner, c, rfl⟩
  · exact absurd h (not_closes_nil (by decide))
  · refine ⟨inner, ?_⟩
    have hopen := h.still_open inner (prefix_append _ _) (by simp)
    have hclosed := h.closed
    rw [net_append] at hclosed
    by_cases hc : c = '\x7d'
    · rw [hc]
    · by_cases hc' : c = '\x7b'
      · rw [hc', net_open] at hclosed
        omega
      · rw [net_other hc' hc] at hclosed
        omega

theorem balanced_open_iff (hdrop : content.toList.drop pos = gap ++ '\x7b' :: after) (n : Nat) :
    Balanced (slice content (pos + gap.length) (pos + gap.length + 1 + n)) ↔
      1 + net (after.take n) = 0 := by
  rw [← settled_iff_balanced, toList_slice_open hdrop, Settled, net_cons, net_open, Int.zero_add]
  simp

theorem exists_firstBlock {e : Nat} (hopen : FirstOpen content pos b) (hbe : b < e)
    (hbalanced : Balanced (slice content b e)) :
    ∃ gap block after, FirstBlock content pos gap block after ∧ b = pos + gap.length ∧
      b + 1 + block.length ≤ e := by
  obtain ⟨gap, after, hdrop, hgap, rfl⟩ := hopen.exists_drop
  obtain ⟨n, rfl⟩ := Nat.exists_eq_add_of_le hbe
  obtain ⟨block, after, rfl, hblock, hn⟩ :=
    exists_closes after n ((balanced_open_iff hdrop n).1 hbalanced)
  exact ⟨gap, block, after, ⟨hdrop, hgap, hblock⟩, rfl, by omega⟩

namespace FirstBlock

variable (h : FirstBlock content pos gap block after)
include h

theorem balanced :
    Balanced (slice content (pos + gap.length) (pos + gap.length + 1 + block.length)) := by
  rw [balanced_open_iff h.drop_eq, take_left]
  exact h.closes.closed

theorem getElem?_last : content.toList[pos + gap.length + 1 + block.length - 1]? = some '\x7d' := by
  obtain ⟨inner, hinner⟩ := h.closes.exists_concat
  have hlast : (block ++ after)[inner.length]? = some '\x7d' := by simp [hinner]
  rw [← drop_open h.drop_eq, getElem?_drop] at hlast
  rwa [hinner, length_append, length_singleton]

theorem countChar_lt {i : Nat} (hi : pos + gap.length < i)
    (hlt : i < pos + gap.length + 1 + block.length) :
    countChar (slice content (pos + gap.length) i) '\x7d' <
      countChar (slice content (pos + gap.length) i) '\x7b' := by
  obtain ⟨n, rfl⟩ := Nat.exists_eq_add_of_le hi
  have hn : n < block.length := by omega
  have hstart := take_prefix n block
  have hlevel := h.closes.still_open (block.take n) hstart fun heq => by
    have hlen := congrArg length heq
    rw [length_take] at hlen
    omega
  rw [countChar, countChar, toList_slice_open h.drop_eq, take_append_of_le_length hn.le]
  rw [← net_open, ← net_cons, net] at hlevel
  omega

theorem blockBody_ne_empty : blockBody content pos "\x7b" "\x7d" ≠ "" := by
  obtain ⟨s, hs, heq⟩ := h.exists_blockBody_eq
  have hle := h.length_le
  have hstart := hs.le
  rw [heq, ne_eq, ← String.toList_inj, toList_slice]
  intro hnil
  have hlen := congrArg length hnil
  rw [length_take, length_drop, String.toList_empty, length_nil] at hlen
  omega

end FirstBlock

end

/-- A text is cut out at a position if and only if there is an opening brace from the position on
and the text is balanced somewhere behind the first one. Then it goes from the start of the line of
the position to the first place where that is so: behind a closing brace, with as many closing
braces as opening ones from the first one on, and fewer everywhere before. -/
theorem blockBody_ne_empty_iff (content : String) (start : Int) :
    let body := blockBody content start "\x7b" "\x7d"
    let pos := Positions.boundary content.toList.length start
    (body ≠ "" ↔ ∃ b e, FirstOpen content pos b ∧ b < e ∧ Balanced (slice content b e)) ∧
      ∀ b e, FirstOpen content pos b → b < e → Balanced (slice content b e) →
        (∀ i, b < i → i < e → ¬ Balanced (slice content b i)) →
        ∃ s, StartsLine content pos s ∧ body = slice content s e ∧
          content.toList[e - 1]? = some '\x7d' ∧
          countChar (slice content b e) '\x7b' = countChar (slice content b e) '\x7d' ∧
          ∀ i, b < i → i < e →
            countChar (slice content b i) '\x7d' < countChar (slice content b i) '\x7b' := by
  intro body pos
  have hbody : body = blockBody content pos "\x7b" "\x7d" := blockBody_boundary.symm
  refine ⟨⟨?_, ?_⟩, ?_⟩
  · intro hne
    obtain ⟨gap, block, after, h⟩ := exists_firstBlock_of_blockBody (hbody ▸ hne)
    exact ⟨_, _, firstOpen_of_drop h.drop_eq h.first, by omega, h.balanced⟩
  · rintro ⟨b, e, hopen, hbe, hbalanced⟩
    obtain ⟨gap, block, after, h, -, -⟩ := exists_firstBlock hopen hbe hbalanced
    exact hbody ▸ h.blockBody_ne_empty
  · intro b e hopen hbe hbalanced hfirst
    obtain ⟨gap, block, after, h, rfl, hle⟩ := exists_firstBlock hopen hbe hbalanced
    -- the block ends at the first balanced place
    obtain rfl : pos + gap.length + 1 + block.length = e :=
      hle.antisymm (not_lt.1 fun hlt => hfirst _ (by omega) hlt h.balanced)
    obtain ⟨s, hs, heq⟩ := h.exists_blockBody_eq
    exact ⟨s, hs, hbody.trans heq, h.getElem?_last, hbalanced.2, fun i => h.countChar_lt⟩

theorem blockBody_ne_empty_iff_nested :
    FirstOpen twoOnLine 5 7 ∧ Balanced (slice twoOnLine 7 13) ∧
      (∀ i, 7 < i → i < 13 → ¬ Balanced (slice twoOnLine 7 i)) ∧
      ∃ s, StartsLine twoOnLine 5 s ∧
        blockBody twoOnLine 5 "\x7b" "\x7d" = slice twoOnLine s 13 := by
  have hpos : Positions.boundary twoOnLine.toList.length 5 = 5 := by decide +kernel
  have hopen : FirstOpen twoOnLine 5 7 := ⟨by decide, by decide +kernel, by decide +kernel⟩
  have hbalanced : Balanced (slice twoOnLine 7 13) := ⟨by decide +kernel, by decide +kernel⟩
  have hcounts : ∀ i < 13, 7 < i → countChar (slice twoOnLine 7 i) '\x7b' ≠
      countChar (slice twoOnLine 7 i) '\x7d' := by decide +kernel
  have hfirst : ∀ i, 7 < i → i < 13 → ¬ Balanced (slice twoOnLine 7 i) :=
    fun i hi hlt h => hcounts i hlt hi h.2
  have h := (blockBody_ne_empty_iff twoOnLine 5).2 7 13
  rw [hpos] at h
  obtain ⟨s, hs, hbody, -⟩ := h hopen (by decide) hbalanced hfirst
  exact ⟨hopen, hbalanced, hfirst, s, hs, hbody⟩

/-! ### The reader of the window -/

theorem throughBraces_eq_bracedLines (depth : Int) (opened : Bool) :
    Description.throughBraces depth opened lines = bracedLines (depth, opened) lines := by
  induction lines generalizing depth opened with
  | nil => rfl
  | cons line rest ih =>
    have hbalance : braceBalance (depth, opened) line =
        (depth + countChar line '\x7b' - countChar line '\x7d',
          opened || occursIn "\x7b" line) := by
      have hopen : decide ('\x7b' ∈ line.toList) = occursIn "\x7b" line := by
        rw [Bool.eq_iff_iff, decide_eq_true_iff, occursIn_open_iff]
      rw [braceBalance_eq, net, hopen, countChar, countChar, Int.add_sub_assoc]
    rw [Description.throughBraces, bracedLines, hbalance, ih]

theorem bracedLines_take (n : Nat) :
    bracedLines state (lines.take n) = (bracedLines state lines).take n := by
  induction lines generalizing state n with
  | nil => simp [bracedLines]
  | cons line rest ih =>
    cases n with
    | zero => rfl
    | succ n =>
      rw [take_succ_cons, bracedLines_cons, bracedLines_cons, take_succ_cons, ih]
      split <;> simp

def keepFeeds : List String → List String
  | [] => []
  | [last] => if last.isEmpty then [] else [last]
  | line :: next :: rest => (line ++ "\n") :: keepFeeds (next :: rest)

theorem linesKeepingFeed_eq (content : String) :
    linesKeepingFeed content = keepFeeds (split content "\n") := by
  rw [linesKeepingFeed]
  generalize split content "\n" = lines
  induction lines using keepFeeds.induct with
  | case1 => rfl
  | case2 last h => simp [keepFeeds, h]
  | case3 last h => simp [keepFeeds, h]
  | case4 line next rest ih =>
    rw [keepFeeds, ← ih, getLast?_cons_cons, dropLast_cons_cons, map_cons]
    split
    · split <;> rfl
    · rfl

theorem drop_keepFeeds (n : Nat) : (keepFeeds lines).drop n = keepFeeds (lines.drop n) := by
  induction lines using keepFeeds.induct generalizing n with
  | case1 => simp [keepFeeds]
  | case2 last h => cases n <;> simp [keepFeeds, h]
  | case3 last h => cases n <;> simp [keepFeeds, h]
  | case4 line next rest ih =>
    cases n with
    | zero => rfl
    | succ n => exact ih n

theorem braceBalance_append_feed (line : String) :
    braceBalance state (line ++ "\n") = braceBalance state line := by
  obtain ⟨n, opened⟩ := state
  have hfeed : net "\n".toList = 0 := rfl
  rw [braceBalance_eq, braceBalance_eq, String.toList_append, net_append, hfeed]
  simp

theorem bracedLines_keepFeeds :
    bracedLines state (keepFeeds lines) =
      (keepFeeds lines).take (bracedLines state lines).length := by
  induction lines using keepFeeds.induct generalizing state with
  | case1 => rfl
  | case2 last h => simp [keepFeeds, h, bracedLines]
  | case3 last h =>
    have hkeep : keepFeeds [last] = [last] := if_neg h
    rw [hkeep]
    exact prefix_iff_eq_take.1 (bracedLines_isPrefix state [last])
  | case4 line next rest ih =>
    have hiff : Settled state (line ++ "\n").toList ↔ Settled state line.toList := by
      rw [← settled_line_iff, ← settled_line_iff, braceBalance_append_feed]
    rw [keepFeeds, bracedLines_cons, bracedLines_cons, length_cons, take_succ_cons,
      braceBalance_append_feed, ih]
    simp only [hiff]
    split <;> rfl

/-- The first lines with their line feeds are the first lines joined by line feeds, up to a line
feed at the end. -/
theorem join_take_keepFeeds (n : Nat) :
    String.join ((keepFeeds lines).take n) = join "\n" (lines.take n) ∨
      String.join ((keepFeeds lines).take n) = join "\n" (lines.take n) ++ "\n" := by
  induction lines using keepFeeds.induct generalizing n with
  | case1 =>
    rw [keepFeeds, take_nil]
    exact .inl rfl
  | case2 last h =>
    obtain rfl := String.isEmpty_iff.1 h
    have hkeep : keepFeeds [""] = [] := rfl
    rw [hkeep, take_nil]
    cases n with
    | zero => exact .inl rfl
    | succ n =>
      rw [take_succ_cons, take_nil]
      exact .inl rfl
  | case3 last h =>
    have hkeep : keepFeeds [last] = [last] := if_neg h
    rw [hkeep]
    cases n with
    | zero => exact .inl rfl
    | succ n =>
      rw [take_succ_cons, take_nil, String.join_cons, String.join_nil, String.append_empty]
      exact .inl rfl
  | case4 line next rest ih =>
    cases n with
    | zero => exact .inl rfl
    | succ n =>
      rw [keepFeeds, take_succ_cons, take_succ_cons, String.join_cons]
      cases n with
      | zero => exact .inr (by simp [join])
      | succ n =>
        have hjoin : join "\n" (line :: (next :: rest).take (n + 1)) =
            line ++ "\n" ++ join "\n" ((next :: rest).take (n + 1)) :=
          String.intercalate_cons_cons
        rw [hjoin]
        refine (ih (n + 1)).imp ?_ ?_
        · intro h
          rw [h]
        · intro h
          rw [h, ← String.append_assoc]

theorem length_bracedLines_le {lines : List String} (hlines : ∀ l ∈ lines, '\n' ∉ l.toList)
    {n : Nat} (h : Balanced (join "\n" (lines.take n))) :
    (bracedLines (0, false) lines).length ≤ n := by
  by_contra hlt
  rw [Nat.not_le] at hlt
  cases lines with
  | nil => simp [bracedLines] at hlt
  | cons line rest =>
    have hkept := bracedLines_isPrefix (0, false) (line :: rest)
    have htake : (bracedLines (0, false) (line :: rest)).take n = (line :: rest).take n := by
      rw [prefix_iff_eq_take.1 hkept, take_take, Nat.min_eq_left hlt.le]
    refine not_settled_of_feed (0, false) hlines ?_ (settled_iff_balanced.2 h)
    refine ⟨(join "\n" ((bracedLines (0, false) (line :: rest)).drop n)).toList, ?_⟩
    conv_rhs => rw [← take_append_drop n (bracedLines (0, false) (line :: rest))]
    rw [toList_join_append, htake, append_assoc]
    · rfl
    · rw [htake]
      intro hnil
      rw [hnil] at h
      exact absurd h.1 not_mem_nil
    · rw [ne_eq, drop_eq_nil_iff]
      omega

theorem bodyFrom_eq (content : String) {k : Nat} (hk : 1 ≤ k) :
    Description.bodyFrom content k =
      String.join ((keepFeeds ((split content "\n").drop (k - 1))).take
        (min 101 (bracedLines (0, false) ((split content "\n").drop (k - 1))).length)) := by
  rw [Description.bodyFrom, if_neg (by omega), Int.toNat_natCast]
  dsimp only
  rw [throughBraces_eq_bracedLines, bracedLines_take, linesKeepingFeed_eq, drop_keepFeeds,
    bracedLines_keepFeeds, take_take, Description.bodyLimit]

theorem run_functionText {session : Session} {path content : String} {k : Nat}
    (hfile : session.tree.readTextLoosely path = .ok content) :
    (Description.functionText path (.int k)).run.run session =
      (.ok (Description.bodyFrom content k), session) := by
  have hexists : (Run.pathExists path).run.run session = (.ok true, session) := by
    rw [Run.pathExists, Run.run_get_bind, FileTree.exists_of_readTextLoosely hfile]
    rfl
  rw [Description.functionText, Run.run_bind_of_ok hexists, if_neg (by decide), Run.orElse,
    Run.run_bind_of_ok (Run.run_attempt _ (goesOn_ok (Description.bodyFrom content k)))]
  · rfl
  · rw [Run.run_tree_bind, Run.run_bind_of_ok (Run.run_lift_of_ok hfile session)]
    rfl

/-- The text of the function at a line of a file is what the reader of lines keeps there, if the
braces are balanced behind one of the next lines or the file ends with them. -/
theorem functionText_eq_bracedBody {session : Session} {path content : String} {k : Nat}
    (hfile : session.tree.readTextLoosely path = .ok content) (hk : 1 ≤ k)
    (hwindow : (∃ j, k ≤ j ∧ j ≤ k + 100 ∧
        Balanced (join "\n" (((split content "\n").take j).drop (k - 1)))) ∨
      (linesKeepingFeed content).length ≤ k + 100) :
    ∃ text body,
      (Description.functionText path (.int k)).run.run session = (.ok text, session) ∧
      bracedBody (split content "\n") (k - 1) = .ok body ∧ (text = body ∨ text = body ++ "\n") := by
  generalize hrest : (split content "\n").drop (k - 1) = lines
  have hlines : ∀ l ∈ lines, '\n' ∉ l.toList := by
    intro l hl
    rw [← hrest] at hl
    exact not_mem_of_mem_split rfl (mem_of_mem_drop hl)
  have hkept : bracedBody (split content "\n") (k - 1) =
      .ok (join "\n" (bracedLines (0, false) lines)) := by
    rw [bracedBody, Positions.onwards, if_pos (by omega),
      show ((k : Int) - 1).toNat = k - 1 by omega, hrest]
    rfl
  -- the window reaches the line where the reader stops, or the end of the file
  have hreach : (keepFeeds lines).take (min 101 (bracedLines (0, false) lines).length) =
      (keepFeeds lines).take (bracedLines (0, false) lines).length := by
    rw [take_eq_take_iff]
    rcases hwindow with ⟨j, hkj, hj, hbalanced⟩ | hshort
    · rw [drop_take, hrest] at hbalanced
      have hle := length_bracedLines_le hlines hbalanced
      omega
    · rw [← hrest, ← drop_keepFeeds, ← linesKeepingFeed_eq, length_drop]
      omega
  refine ⟨_, _, run_functionText hfile, hkept, ?_⟩
  have htext := join_take_keepFeeds lines (bracedLines (0, false) lines).length
  rw [← prefix_iff_eq_take.1 (bracedLines_isPrefix (0, false) lines)] at htext
  rw [bodyFrom_eq content hk, hrest, hreach]
  exact htext

/-- A session with the functions in a file. -/
def twoOnLineSession : Session where
  tree := (FileTree.empty "/w").addFile "f.c" (encodeUtf8 twoOnLine)

theorem functionText_eq_bracedBody_two_on_line :
    twoOnLineSession.tree.readTextLoosely "f.c" = .ok twoOnLine ∧
      Balanced (join "\n" (((split twoOnLine "\n").take 5).drop 1)) ∧
      ∃ text body,
        (Description.functionText "f.c" (.int 2)).run.run twoOnLineSession =
          (.ok text, twoOnLineSession) ∧
        bracedBody (split twoOnLine "\n") 1 = .ok body ∧ (text = body ∨ text = body ++ "\n") := by
  have hfile : twoOnLineSession.tree.readTextLoosely "f.c" = .ok twoOnLine := by
    have hisFile : twoOnLineSession.tree.isFile "f.c" = true := by decide +kernel
    rw [FileTree.readTextLoosely, FileTree.readBytes, if_pos hisFile]
    apply congrArg Except.ok
    decide +kernel
  have hbalanced : Balanced (join "\n" (((split twoOnLine "\n").take 5).drop 1)) :=
    ⟨by decide +kernel, by decide +kernel⟩
  exact ⟨hfile, hbalanced, functionText_eq_bracedBody (k := 2) hfile (by decide)
    (.inl ⟨5, by decide, by decide, hbalanced⟩)⟩

end CodeAtlas.Finder
