import CodeAtlas.Finder.Bodies
import CodeAtlas.Proofs.Text.Lines

/-!
# Blocks of braces

Two readers look for the end of a block. One goes through the characters behind
a position and stops in the middle of a line (`blockBody`). The other one goes
through whole lines and tests the balance of braces at their ends
(`bracedLines`). Both are described by `net`, the number of braces opened minus
the number of those closed.

The text cut out by the first one is what stands on the line in front of the
position, a gap without an opening brace, and a block in which no beginning is
closed (`blockBody_spec`). The second one keeps a beginning of the text unless a
line ends inside of it where all that was opened is closed
(`prefix_bracedLines_iff`).
-/

namespace CodeAtlas.Positions

theorem boundary_le (size : Nat) (i : Int) : boundary size i ≤ size := by
  rw [boundary]
  split <;> omega

theorem boundary_of_le {size n : Nat} (h : n ≤ size) : boundary size n = n := by
  rw [boundary, if_neg (by omega)]
  omega

end CodeAtlas.Positions

namespace CodeAtlas.Text

theorem toList_slice (content : String) (i j : Nat) :
    (slice content i j).toList = (content.toList.drop i).take (j - i) :=
  String.toList_ofList

theorem toList_slice_append (content : String) {i j k : Nat} (hij : i ≤ j) (hjk : j ≤ k) :
    (slice content i k).toList = (slice content i j).toList ++ (slice content j k).toList := by
  rw [toList_slice, toList_slice, toList_slice,
    show k - i = (j - i) + (k - j) by omega, List.take_add, List.drop_drop,
    show i + (j - i) = j by omega]

section

variable {content : String} {pos : Nat} {gap after : List Char}

theorem toList_slice_gap (hdrop : content.toList.drop pos = gap ++ after) :
    (slice content pos (pos + gap.length)).toList = gap := by
  rw [toList_slice, hdrop, Nat.add_sub_cancel_left, List.take_left]

theorem drop_gap (hdrop : content.toList.drop pos = gap ++ after) :
    content.toList.drop (pos + gap.length) = after := by
  rw [← List.drop_drop, hdrop, List.drop_left]

end

/-- The line of a position starts at `s`. -/
structure StartsLine (content : String) (pos s : Nat) : Prop where
  le : s ≤ pos
  start : EndsLine (content.toList.take s)
  same_line : '\n' ∉ (slice content s pos).toList

theorem StartsLine.lineHead_eq {content : String} {pos s : Nat} (h : StartsLine content pos s) :
    lineHead content.toList pos = (slice content s pos).toList := by
  have htake : content.toList.take pos = content.toList.take s ++ (slice content s pos).toList := by
    rw [toList_slice, ← List.take_add, Nat.add_sub_cancel' h.le]
  have hall : ∀ c ∈ (slice content s pos).toList.reverse, (c != '\n') = true := by
    intro c hc
    rw [bne_iff_ne]
    rintro rfl
    exact h.same_line (List.mem_reverse.1 hc)
  have hfront : (content.toList.take s).reverse.takeWhile (· != '\n') = [] := by
    rcases h.start with hnil | ⟨lines, hlines⟩
    · rw [hnil]
      rfl
    · rw [hlines, List.reverse_append]
      rfl
  rw [lineHead, htake, List.rtakeWhile, List.reverse_append, List.takeWhile_append_of_pos hall,
    hfront, List.append_nil, List.reverse_reverse]

end CodeAtlas.Text

namespace CodeAtlas.Finder

open Text
open List hiding take drop

variable {depth : Int} {content line : String} {state : Int × Bool} {block front : List Char}
  {pos : Nat}

/-! ### Balance -/

/-- How many more braces are opened than closed. -/
def net (cs : List Char) : Int := cs.count '\x7b' - cs.count '\x7d'

@[simp] theorem net_nil : net [] = 0 := rfl

@[simp] theorem net_append (xs ys : List Char) : net (xs ++ ys) = net xs + net ys := by
  unfold net
  rw [count_append, count_append]
  omega

theorem net_cons (c : Char) (cs : List Char) : net (c :: cs) = net [c] + net cs := net_append [c] cs

@[simp] theorem net_open : net ['\x7b'] = 1 := rfl

@[simp] theorem net_close : net ['\x7d'] = -1 := rfl

theorem net_other {c : Char} (hopen : c ≠ '\x7b') (hclose : c ≠ '\x7d') : net [c] = 0 := by
  simp [net, hopen, hclose]

/-- The text closes all blocks that were open, and its last character closes the last of them. -/
structure Closes (depth : Int) (block : List Char) : Prop where
  closed : depth + net block = 0
  still_open : ∀ x, x <+: block → x ≠ block → 0 < depth + net x

theorem Closes.pos_of_feed {x : List Char} (h : Closes depth block) (hx : x ++ ['\n'] <+: block) :
    0 < depth + net x := by
  apply h.still_open x ((prefix_append x ['\n']).trans hx)
  rintro rfl
  have hlen := hx.length_le
  rw [length_append, length_singleton] at hlen
  omega

theorem closes_zero_iff : Closes 0 block ↔ block = [] := by
  constructor
  · intro h
    by_contra hne
    have hopen := h.still_open [] nil_prefix (Ne.symm hne)
    simp at hopen
  · rintro rfl
    refine ⟨rfl, ?_⟩
    intro x hx hne
    exact absurd (prefix_nil.1 hx) hne

theorem not_closes_nil (hdepth : 0 < depth) : ¬ Closes depth [] := by
  intro h
  have hclosed := h.closed
  rw [net_nil] at hclosed
  omega

theorem closes_cons_iff (hdepth : 0 < depth) (c : Char) (block : List Char) :
    Closes depth (c :: block) ↔ Closes (depth + net [c]) block := by
  constructor
  · intro h
    refine ⟨?_, ?_⟩
    · have hclosed := h.closed
      rw [net_cons] at hclosed
      omega
    · intro x hx hne
      have hopen := h.still_open (c :: x) ((prefix_cons_inj c).2 hx) (by simpa using hne)
      rw [net_cons] at hopen
      omega
  · intro h
    refine ⟨?_, ?_⟩
    · have hclosed := h.closed
      rw [net_cons]
      omega
    · intro x hx hne
      rcases prefix_cons_iff.1 hx with rfl | ⟨y, rfl, hy⟩
      · simpa using hdepth
      · have hopen := h.still_open y hy (by simpa using hne)
        rw [net_cons]
        omega

/-! ### The reader of characters -/

theorem blockLength?_cons (depth : Nat) (c : Char) (cs : List Char) :
    ∃ depth' : Nat, (depth' : Int) = depth + 1 + net [c] ∧
      blockLength? "\x7b" "\x7d" (depth + 1) (c :: cs) =
        (blockLength? "\x7b" "\x7d" depth' cs).map (· + 1) := by
  have hchar : ∀ d : Char, (String.ofList [c] == String.ofList [d]) = (c == d) := by
    intro d
    rw [Bool.eq_iff_iff, beq_iff_eq, beq_iff_eq, String.ofList_inj, cons.injEq]
    simp
  refine ⟨_, ?_, rfl⟩
  have hopen : "\x7b" = String.ofList ['\x7b'] := rfl
  have hclose : "\x7d" = String.ofList ['\x7d'] := rfl
  rw [hopen, hclose, hchar, hchar]
  by_cases h1 : c = '\x7b'
  · subst h1
    rw [net_open, if_pos (by decide)]
    omega
  · rw [if_neg (by simpa using h1)]
    by_cases h2 : c = '\x7d'
    · subst h2
      rw [net_close, if_pos (by decide)]
      omega
    · rw [net_other h1 h2, if_neg (by simpa using h2)]
      omega

theorem blockLength?_eq_some_iff {depth n : Nat} {cs : List Char} :
    blockLength? "\x7b" "\x7d" depth cs = some n ↔
      ∃ block rest, cs = block ++ rest ∧ Closes depth block ∧ block.length = n := by
  induction cs generalizing depth n with
  | nil =>
    cases depth with
    | zero => simp [blockLength?, closes_zero_iff, eq_comm]
    | succ depth =>
      have hnone : ¬ Closes ((depth + 1 : Nat) : Int) [] := not_closes_nil (by omega)
      constructor
      · intro h
        cases h
      · rintro ⟨block, rest, hnil, hblock, -⟩
        rw [(append_eq_nil_iff.1 hnil.symm).1] at hblock
        exact absurd hblock hnone
  | cons c cs ih =>
    cases depth with
    | zero => simp [blockLength?, closes_zero_iff, eq_comm]
    | succ depth =>
      obtain ⟨depth', hdepth', hlength⟩ := blockLength?_cons depth c cs
      have hcons (block : List Char) :
          Closes ((depth + 1 : Nat) : Int) (c :: block) ↔ Closes depth' block := by
        rw [closes_cons_iff (by omega), hdepth', Int.natCast_add]
        rfl
      rw [hlength, Option.map_eq_some_iff]
      constructor
      · rintro ⟨m, hm, rfl⟩
        obtain ⟨block, rest, rfl, hblock, rfl⟩ := ih.1 hm
        exact ⟨c :: block, rest, rfl, (hcons block).2 hblock, rfl⟩
      · rintro ⟨block, rest, hcs, hblock, rfl⟩
        cases block with
        | nil => exact absurd hblock (not_closes_nil (by omega))
        | cons d block =>
          obtain ⟨rfl, rfl⟩ := cons.inj hcs
          exact ⟨block.length, ih.2 ⟨block, rest, rfl, (hcons block).1 hblock, rfl⟩, rfl⟩

theorem findFrom?_open {gap after : List Char}
    (hdrop : content.toList.drop pos = gap ++ '\x7b' :: after) (hgap : '\x7b' ∉ gap) :
    findFrom? "\x7b" content pos = some (pos + gap.length) := by
  rw [findFrom?, hdrop, Nat.add_comm]
  exact congrArg _ (findList?_append hgap after)

theorem findLast?_take (hfront : EndsLine front)
    (htake : content.toList.take pos = front ++ lineHead content.toList pos) :
    (findLast? "\n" (take content pos)).elim 0 (· + 1) = front.length := by
  have hhead := feed_not_mem_lineHead content.toList pos
  have hfeed : "\n".toList = ['\n'] := rfl
  rw [findLast?, take, String.toList_ofList, htake, hfeed]
  rcases hfront with rfl | ⟨lines, rfl⟩
  · have hnone : findList? ['\n'] (lineHead content.toList pos).reverse = none :=
      findList?_eq_none_iff.2 (by simpa using hhead)
    simp [hnone]
  · have hsome : findList? ['\n'] (lines ++ ['\n'] ++ lineHead content.toList pos).reverse =
        some (lineHead content.toList pos).reverse.length := by
      rw [reverse_append, reverse_append]
      exact findList?_append (by simpa using hhead) _
    rw [reverse_singleton, hsome]
    simp

/-! ### The first block -/

section FirstBlock

variable {gap after : List Char}

theorem drop_open (hdrop : content.toList.drop pos = gap ++ '\x7b' :: after) :
    content.toList.drop (pos + gap.length + 1) = after := by
  rw [← drop_drop, drop_gap hdrop]
  rfl

theorem toList_slice_open (hdrop : content.toList.drop pos = gap ++ '\x7b' :: after) (n : Nat) :
    (slice content (pos + gap.length) (pos + gap.length + 1 + n)).toList =
      '\x7b' :: after.take n := by
  rw [toList_slice, drop_gap hdrop,
    show pos + gap.length + 1 + n - (pos + gap.length) = n + 1 by omega, take_succ_cons]

/-- The first block from a position on, behind a gap. -/
structure FirstBlock (content : String) (pos : Nat) (gap block after : List Char) : Prop where
  drop_eq : content.toList.drop pos = gap ++ '\x7b' :: (block ++ after)
  first : '\x7b' ∉ gap
  closes : Closes 1 block

theorem exists_startsLine (hpos : pos ≤ content.toList.length) :
    ∃ s, StartsLine content pos s ∧ (findLast? "\n" (take content pos)).elim 0 (· + 1) = s := by
  obtain ⟨front, hfront, htake, hcs⟩ := exists_fromLine content.toList pos
  have hlen := congrArg length htake
  rw [length_take, length_append, Nat.min_eq_left hpos] at hlen
  refine ⟨front.length, ⟨by omega, ?_, ?_⟩, findLast?_take hfront htake⟩
  · rw [hcs, take_left]
    exact hfront
  · have hdrop : content.toList.drop front.length =
        lineHead content.toList pos ++ content.toList.drop pos := by
      conv_lhs => rw [hcs]
      exact drop_left
    have hslice := toList_slice_gap hdrop
    rw [← hlen] at hslice
    rw [hslice]
    exact feed_not_mem_lineHead _ _

theorem exists_firstBlock_of_blockBody (hbody : blockBody content pos "\x7b" "\x7d" ≠ "") :
    ∃ gap block after, FirstBlock content pos gap block after := by
  have hpos : ¬ (content.toList.length : Int) < pos := fun h => hbody (if_pos h)
  rw [blockBody] at hbody
  have hle : pos ≤ content.toList.length := by omega
  simp only [Positions.boundary_of_le hle, if_neg hpos] at hbody
  cases hfind : findFrom? "\x7b" content pos with
  | none => simp [hfind] at hbody
  | some i =>
    cases hlength : blockLength? "\x7b" "\x7d" 1 (content.toList.drop (i + 1)) with
    | none => simp [hfind, hlength] at hbody
    | some n =>
      obtain ⟨m, hm, rfl⟩ := Option.map_eq_some_iff.1 hfind
      obtain ⟨gap, after, hdrop, hgap, rfl⟩ := findList?_eq_some_iff (c := '\x7b').1 hm
      rw [Nat.add_comm gap.length, drop_open hdrop] at hlength
      obtain ⟨block, rest, rfl, hblock, -⟩ := blockLength?_eq_some_iff.1 hlength
      exact ⟨gap, block, rest, hdrop, hgap, hblock⟩

namespace FirstBlock

variable (h : FirstBlock content pos gap block after)
include h

theorem length_le : pos + gap.length + 1 + block.length ≤ content.toList.length := by
  have hlen := congrArg length h.drop_eq
  rw [length_drop, length_append, length_cons, length_append] at hlen
  omega

theorem exists_blockBody_eq :
    ∃ s, StartsLine content pos s ∧ blockBody content pos "\x7b" "\x7d" =
      slice content s (pos + gap.length + 1 + block.length) := by
  have hle := h.length_le
  have hpos : pos ≤ content.toList.length := by omega
  have hlength : blockLength? "\x7b" "\x7d" 1 (content.toList.drop (pos + gap.length + 1)) =
      some block.length :=
    blockLength?_eq_some_iff.2 ⟨block, after, drop_open h.drop_eq, h.closes, rfl⟩
  obtain ⟨s, hs, hstart⟩ := exists_startsLine hpos
  refine ⟨s, hs, ?_⟩
  rw [blockBody]
  simp only [Positions.boundary_of_le hpos, findFrom?_open h.drop_eq h.first, hlength, ← hstart]
  rw [if_neg (by omega)]
  cases findLast? "\n" (take content pos) <;> rfl

end FirstBlock

/-- A text cut out at a position begins where the line of the position does and ends with the first
block behind the position. -/
theorem blockBody_spec (hbody : blockBody content pos "\x7b" "\x7d" ≠ "") :
    ∃ gap block rest, FirstBlock content pos gap block rest ∧
      (blockBody content pos "\x7b" "\x7d").toList =
        lineHead content.toList pos ++ gap ++ '\x7b' :: block := by
  obtain ⟨gap, block, rest, h⟩ := exists_firstBlock_of_blockBody hbody
  obtain ⟨s, hs, heq⟩ := h.exists_blockBody_eq
  refine ⟨gap, block, rest, h, ?_⟩
  rw [heq, toList_slice_append content hs.le (by omega : pos ≤ pos + gap.length + 1 + block.length),
    toList_slice_append content (Nat.le_add_right pos gap.length) (by omega), hs.lineHead_eq,
    toList_slice_gap h.drop_eq, toList_slice_open h.drop_eq, take_left, append_assoc]

end FirstBlock

/-! ### The reader of lines -/

theorem braceBalance_eq (n : Int) (opened : Bool) (line : String) :
    braceBalance (n, opened) line =
      (n + net line.toList, opened || decide ('\x7b' ∈ line.toList)) := by
  rw [braceBalance]
  induction line.toList generalizing n opened with
  | nil => simp
  | cons c cs ih =>
    rw [foldl_cons, net_cons]
    by_cases hopen : c = '\x7b'
    · subst hopen
      exact (ih (n + 1) true).trans (by simp [Int.add_assoc])
    · rw [beq_false_of_ne hopen]
      by_cases hclose : c = '\x7d'
      · subst hclose
        exact (ih (n - 1) opened).trans (by simp [Int.sub_eq_add_neg, Int.add_assoc])
      · rw [beq_false_of_ne hclose]
        exact (ih n opened).trans (by simp [net_other hopen hclose, Ne.symm hopen])

def Settled (state : Int × Bool) (x : List Char) : Prop :=
  (state.2 = true ∨ '\x7b' ∈ x) ∧ state.1 + net x = 0

instance (state : Int × Bool) (x : List Char) : Decidable (Settled state x) :=
  inferInstanceAs (Decidable (_ ∧ _))

theorem settled_line_iff :
    ((braceBalance state line).2 && (braceBalance state line).1 == 0) = true ↔
      Settled state line.toList := by
  obtain ⟨n, opened⟩ := state
  simp [braceBalance_eq, Settled]

theorem settled_append_iff {x : List Char} :
    Settled state (line.toList ++ '\n' :: x) ↔ Settled (braceBalance state line) x := by
  obtain ⟨n, opened⟩ := state
  have hfeed : net ('\n' :: x) = net x := by
    rw [net_cons, net_other (by decide) (by decide), Int.zero_add]
  simp [Settled, braceBalance_eq, hfeed, or_assoc, Int.add_assoc]

theorem bracedLines_cons (state : Int × Bool) (line : String) (rest : List String) :
    bracedLines state (line :: rest) = line ::
      if Settled state line.toList then [] else bracedLines (braceBalance state line) rest := by
  simp only [bracedLines, settled_line_iff]
  split <;> rfl

theorem line_prefix_bracedLines (state : Int × Bool) (line : String) (rest : List String) :
    line.toList <+: (join "\n" (bracedLines state (line :: rest))).toList := by
  rw [bracedLines_cons, toList_join_cons]
  exact prefix_append _ _

theorem append_feed_prefix_bracedLines_iff {next : String} {rest : List String} {more : List Char} :
    line.toList ++ '\n' :: more <+: (join "\n" (bracedLines state (line :: next :: rest))).toList ↔
      ¬ Settled state line.toList ∧
        more <+: (join "\n" (bracedLines (braceBalance state line) (next :: rest))).toList := by
  rw [bracedLines_cons]
  by_cases h : Settled state line.toList
  · simp [h, not_append_feed_prefix_join_singleton]
  · rw [if_neg h, bracedLines_cons, append_feed_prefix_join_iff]
    simp [h]

/-- A beginning of the text is kept if no line ends inside of it with all braces closed. -/
theorem prefix_bracedLines_iff {rest : List String} (hlines : ∀ l ∈ line :: rest, '\n' ∉ l.toList)
    (state : Int × Bool) {text : List Char} (htext : text <+: (join "\n" (line :: rest)).toList) :
    text <+: (join "\n" (bracedLines state (line :: rest))).toList ↔
      ∀ x, x ++ ['\n'] <+: text → ¬ Settled state x := by
  induction rest generalizing line state text with
  | nil =>
    rw [toList_join_cons, flatMap_nil, append_nil] at htext
    refine iff_of_true (htext.trans (line_prefix_bracedLines state line [])) ?_
    intro x hx
    exact absurd (htext.subset (hx.subset (by simp))) (hlines line mem_cons_self)
  | cons next rest ih =>
    rw [forall_mem_cons] at hlines
    rw [toList_join_cons_cons] at htext
    rcases prefix_line_cases htext with hshort | ⟨more, rfl, hmore⟩
    · refine iff_of_true (hshort.trans (line_prefix_bracedLines state line (next :: rest))) ?_
      intro x hx
      exact absurd (hshort.subset (hx.subset (by simp))) hlines.1
    · rw [append_feed_prefix_bracedLines_iff, ih hlines.2 _ hmore]
      constructor
      · rintro ⟨hline, hrest⟩ x hx
        rcases (feed_prefix_iff hlines.1).1 hx with rfl | ⟨y, rfl, hy⟩
        · exact hline
        · rw [settled_append_iff]
          exact hrest y hy
      · intro h
        refine ⟨h _ ((feed_prefix_iff hlines.1).2 (.inl rfl)), ?_⟩
        intro y hy
        rw [← settled_append_iff]
        exact h _ ((feed_prefix_iff hlines.1).2 (.inr ⟨y, rfl, hy⟩))

end CodeAtlas.Finder
