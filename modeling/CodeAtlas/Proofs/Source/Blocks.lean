import CodeAtlas.Proofs.CodeIndex.CallLinks
import CodeAtlas.Proofs.FileTree
import CodeAtlas.Proofs.Source.Definitions
import CodeAtlas.Proofs.Text.Words

/-!
# Code of blocks

The rows of a block are counted at line feeds, but its code is cut out of the
source at line ends of every kind. `code_eq_rows_iff` says when the code is that
of the rows all the same: there is no other line end in them, and the lines that
stand as many lines higher as there are such line ends above are no others.

A block is parsed once more from its code alone to see what it calls. Code that is
indented does not parse, so the callees of a name are those of its outermost
definitions (`callees_eq_flatMap`).
-/

namespace CodeAtlas.Text

/-- The rows of a text with any line ends: feeds, returns, and pairs of both. -/
def numberedRows : List Char → List (List Char)
  | [] => []
  | '\r' :: '\n' :: cs => [] :: numberedRows cs
  | c :: cs =>
    if c == '\r' || c == '\n' then [] :: numberedRows cs
    else
      match numberedRows cs with
      | [] => [[c]]
      | row :: rows => (c :: row) :: rows

theorem rowsList_unifyLineEnds (cs : List Char) :
    rowsList (· == '\n') (unifyLineEnds cs) = numberedRows cs := by
  fun_induction unifyLineEnds cs with
  | case1 => rfl
  | case2 cs ih => simp [rowsList, numberedRows, ih]
  | case3 cs h ih =>
    rw [numberedRows.eq_3 _ _ (by simpa using h)]
    simp [rowsList, ih]
  | case4 c cs h hreturn ih =>
    have hc : c ≠ '\r' := fun hc => hreturn hc
    rw [numberedRows.eq_3 _ _ (by simp [hc]), rowsList, ih]
    by_cases hfeed : c = '\n' <;> cases numberedRows cs <;> simp [hc, hfeed]

theorem return_notMem_unifyLineEnds (cs : List Char) : '\r' ∉ unifyLineEnds cs := by
  fun_induction unifyLineEnds cs with
  | case1 => simp
  | case2 cs ih => simpa using ih
  | case3 cs h ih => simpa using ih
  | case4 c cs h hreturn ih =>
    have hc : '\r' ≠ c := fun hc => hreturn hc.symm
    simpa [hc] using ih

/-- Rows without stray line ends are the lines further down by the number of those above. -/
theorem cut_rowsList {cs : List Char} {first last : Nat}
    (h : ∀ row ∈ ((rowsList (· == '\n') cs).take last).drop (first - 1), ∀ c ∈ row,
      isLineEnd c = false) :
    ((rowsList isLineEnd cs).take (last + strays ((rowsList (· == '\n') cs).take (first - 1)))).drop
        (first + strays ((rowsList (· == '\n') cs).take (first - 1)) - 1) =
      ((rowsList (· == '\n') cs).take last).drop (first - 1) := by
  obtain ⟨rest, hrows, hlines⟩ := exists_drop_rows cs (first - 1)
  have hzero : first = 0 → strays ((rowsList (· == '\n') cs).take (first - 1)) = 0 := by
    rintro rfl
    rfl
  set k := strays ((rowsList (· == '\n') cs).take (first - 1))
  rw [List.drop_take, ← hrows] at h
  rw [List.drop_take, List.drop_take, ← hrows,
    show first + k - 1 = first - 1 + k by omega, ← hlines,
    show last + k - (first - 1 + k) = last - (first - 1) by omega]
  exact take_rowsList_isLineEnd h

end CodeAtlas.Text

namespace CodeAtlas.Source

open Text List

theorem Block.code_eq_cutLines {file source : String} {t : Tree} {b : Block}
    (h : ofTree? file source t = some b) : b.code = cutLines source b.startLine b.endLine := by
  cases t with
  | value v => cases h
  | node kind first last children =>
    cases kind with
    | function isAsync name params n => cases h; rfl
    | classDef name => cases h; rfl
    | other => cases h

theorem cutLines_eq {cs : List Char} (h : '\r' ∉ cs) (first last : Nat) :
    cutLines (String.ofList cs) first last =
      join "\n" ((((rowsList isLineEnd cs).take last).drop (first - 1)).map String.ofList) := by
  rw [cutLines, lines, String.toList_ofList, linesList_eq_rowsList h, map_drop, map_take]

theorem Tree.DefinedAt.levels {D : Nat → Prop} {row : List Tree} (h : ∀ t ∈ row, t.DefinedAt D)
    (n : Nat) : ∀ t ∈ Tree.levels n row, t.DefinedAt D := by
  induction n generalizing row with
  | zero => simp [Tree.levels]
  | succ n ih =>
    refine forall_mem_append.2 ⟨h, ih ?_⟩
    intro child hchild
    obtain ⟨t, ht, hchild⟩ := mem_flatMap.1 hchild
    exact (h t ht).children child hchild

theorem Tree.height_pos (t : Tree) : 0 < t.height := by
  cases t with
  | value v =>
    cases v
    simp [height, Value.height]
  | node => simp [height]

theorem exists_nodes_eq (trees : List Tree) :
    ∃ n, (Tree.plain trees).nodes =
      .plain trees :: (trees ++ Tree.levels n (trees.flatMap Tree.children)) := by
  have hfirst : (Tree.plain trees).nodes =
      .plain trees :: Tree.levels (Tree.heights trees) trees := by
    simp [Tree.nodes, Tree.plain, Tree.height, Tree.levels, Tree.children]
  cases trees with
  | nil => exact ⟨0, hfirst⟩
  | cons t trees =>
    have hpos : 0 < Tree.heights (t :: trees) :=
      Nat.lt_of_lt_of_le t.height_pos (Nat.le_max_left _ _)
    obtain ⟨n, hn⟩ := Nat.exists_eq_succ_of_ne_zero hpos.ne'
    exact ⟨n, by rw [hfirst, hn]; rfl⟩

/-- The name of the function that a tree defines. -/
def Tree.function? (t : Tree) : Option String :=
  match t.kind with
  | .function _ name _ _ => some name
  | _ => none

/-- The lines of a source are its rows, and no row is joined to the next one. -/
structure PlainRows (source : String) : Prop where
  feed_of_isLineEnd : ∀ c ∈ source.toList, isLineEnd c = true → c = '\n'
  not_joined : ∀ row ∈ rows source, ¬ ['\\'] <:+ row

instance (source : String) : Decidable (PlainRows source) :=
  decidable_of_iff ((source.toList.all fun c => !isLineEnd c || c == '\n') = true ∧
      ((rows source).all fun row => !(['\\'].isSuffixOf row)) = true) <| by
    constructor
    · rintro ⟨hfeeds, hrows⟩
      refine ⟨fun c hc hend => ?_, fun row hrow => ?_⟩
      · simpa [hend] using all_eq_true.1 hfeeds c hc
      · simpa [← isSuffixOf_iff_suffix] using all_eq_true.1 hrows row hrow
    · intro h
      refine ⟨all_eq_true.2 fun c hc => ?_, all_eq_true.2 fun row hrow => ?_⟩
      · cases hend : isLineEnd c
        · rfl
        · simpa using h.feed_of_isLineEnd c hc hend
      · simpa [← isSuffixOf_iff_suffix] using h.not_joined row hrow

theorem PlainRows.cutLines_eq {source : String} (h : PlainRows source) (first last : Nat) :
    cutLines source first last = cutRows source first last := by
  have hreturn : '\r' ∉ source.toList := fun hmem =>
    absurd (h.feed_of_isLineEnd _ hmem (by decide)) (by decide)
  have hrows : rowsList isLineEnd source.toList = rows source := by
    refine rowsList_congr fun c hc => ?_
    by_cases hfeed : c = '\n'
    · subst hfeed
      rfl
    · rw [beq_false_of_ne hfeed, Bool.eq_false_iff]
      exact fun hend => hfeed (h.feed_of_isLineEnd c hc hend)
  rw [cutLines, lines, linesList_eq_rowsList hreturn, hrows, cutRows, map_drop, map_take]

/-- The plain names that a definition calls if its rows are parsed alone. -/
def Tree.namesAlone (source : String) : Tree → List String
  | .node _ first last _ =>
    ((firstStatement? first (cutRows source first last)).map calledNames).getD []
  | .value _ => []

theorem Block.calledNames_ofTree? {source : String} (hsource : PlainRows source)
    (file name : String) (t : Tree) :
    (((ofTree? file source t).toList).flatMap fun b =>
      if b.isFunction && name == b.name then b.calledNames else []) =
      if t.function? == some name then t.namesAlone source else [] := by
  cases t with
  | value v => rfl
  | node kind first last children =>
    cases kind with
    | function isAsync f params n =>
      have hfunction : ∀ code, isFunction ⟨if isAsync then .asyncFunction else .function, f, first,
          last, code, file⟩ = true := by
        cases isAsync <;> exact fun _ => rfl
      by_cases hname : name = f
      · simp [ofTree?, calledNames, hfunction, Tree.function?, Tree.kind, Tree.namesAlone, hname,
          hsource.cutLines_eq]
      · simp [ofTree?, Tree.function?, Tree.kind, hname, Ne.symm hname]
    | classDef name => rfl
    | other => rfl

theorem Block.calledNames_indented {source : String} (hsource : PlainRows source)
    {lines : List Line} (hlines : readLines 1 0 (rows source) = (lines, none)) {t : Tree}
    (ht : t.DefinedAt fun first => ∃ l ∈ lines, 0 < l.indent ∧ l.first = first) {file : String}
    {b : Block} (hb : ofTree? file source t = some b) : b.calledNames = [] := by
  have hnone : ∀ l ∈ lines, 0 < l.indent → ∀ last,
      firstStatement? l.first (cutLines source l.first last) = none := by
    intro l hl hindent last
    rw [hsource.cutLines_eq]
    exact firstStatement?_cutRows hsource.not_joined hlines hl hindent last
  cases ht with
  | value v => cases hb
  | @node kind first last children hfirst _ =>
    cases kind with
    | function isAsync f params n =>
      obtain ⟨l, hl, hindent, rfl⟩ := hfirst (by simp)
      cases hb
      rw [calledNames, hnone l hl hindent]
      rfl
    | classDef name =>
      obtain ⟨l, hl, hindent, rfl⟩ := hfirst (by simp)
      cases hb
      rw [calledNames, hnone l hl hindent]
      rfl
    | other => cases hb

end CodeAtlas.Source

namespace CodeAtlas.CodeIndex

open Source List

theorem callees_linksOf (bs : List Block) (name : String) :
    ((linksOf bs).links name).callees =
      bs.flatMap fun b => if b.isFunction && name == b.name then b.calledNames else [] := by
  rw [linksOf, LinkTable.links_ofCalls]
  induction bs with
  | nil => rfl
  | cons b bs ih =>
    rw [flatMap_cons, ← ih]
    cases hb : b.isFunction <;> simp [hb, LinkTable.calleesIn]

end CodeAtlas.CodeIndex
