import CodeAtlas.Cflow
import Mathlib.Data.List.Nodup
import Mathlib.Data.List.Perm.Subperm
import Mathlib.Data.List.Range

/-!
# Finding the caller of a line

The function above a line is found from two stacks, one of indents and one of
names. A line that stands less deep than the line before closes all indents from
its own on and one name for each, but opens no indent of its own. The stacks
agree as long as every indent from the line's own on is open (`Aligned`): then
the caller is read off the path to the line before (`enclosing`). One return leaves
its own depth closed, so the next one has to come back to a greater depth.

`noted_eq_links` says that outlines whose returns go ever deeper are read right,
and `exists_misplaced` that any other outline with distinct names has a line
under a wrong function.
-/

namespace CodeAtlas.Cflow

open List

variable {path : List String} {levels : List Nat} {r : Row} {depth : Nat} {l : String × Row}
  {rows : List Row}

/-- A line of an outline, with its depth in place of its indent. -/
structure Row where
  depth : Nat
  name : String
  line : Nat

def Row.entry (r : Row) : Entry := ⟨4 * r.depth, r.name, r.line⟩

theorem Row.indent_entry (r : Row) : ((r.entry.indent : Nat) : Int) = 4 * (r.depth : Int) := by
  simp [Row.entry]

/-- The functions above a line, if `path` holds the line before and those above it. -/
def enclosing (path : List String) (depth : Nat) : List String :=
  path.drop (path.length - depth)

def links (path : List String) : List Row → List (String × Row)
  | [] => []
  | r :: rest =>
    ((enclosing path r.depth).headD "", r) :: links (r.name :: enclosing path r.depth) rest

def Place.enter (p : Place) (r : Row) : Place :=
  { p.goTo r.entry.indent with above := r.name :: (p.goTo r.entry.indent).above }

def noted (p : Place) : List Row → List (String × Row)
  | [] => []
  | r :: rest => ((p.goTo r.entry.indent).above.headD "", r) :: noted (p.enter r) rest

/-- The depths of the lines that stand less deep than the line before. -/
def returns (last : Nat) : List Nat → List Nat
  | [] => []
  | d :: ds => if d < last then d :: returns d ds else returns d ds

def Nested (count : Nat) : List Row → Prop
  | [] => True
  | r :: rest => r.depth ≤ count ∧ Nested (r.depth + 1) rest

theorem map_snd_noted (p : Place) (rows : List Row) : (noted p rows).map Prod.snd = rows := by
  induction rows generalizing p with
  | nil => rfl
  | cons r rest ih => rw [noted, map_cons, ih]

theorem map_snd_links (path : List String) (rows : List Row) :
    (links path rows).map Prod.snd = rows := by
  induction rows generalizing path with
  | nil => rfl
  | cons r rest ih => rw [links, map_cons, ih]

theorem snd_mem_of_mem_noted {p : Place} (h : l ∈ noted p rows) : l.2 ∈ rows :=
  map_snd_noted p rows ▸ mem_map_of_mem h

theorem snd_mem_of_mem_links (h : l ∈ links path rows) : l.2 ∈ rows :=
  map_snd_links path rows ▸ mem_map_of_mem h

theorem enclosing_self (path : List String) : enclosing path path.length = path := by
  rw [enclosing, Nat.sub_self, drop_zero]

theorem length_path_enter (h : r.depth ≤ path.length) :
    (r.name :: enclosing path r.depth).length = r.depth + 1 := by
  rw [length_cons, enclosing, length_drop]
  omega

/-! ### Closing indents -/

def indentsOf (levels : List Nat) : List Int :=
  levels.map (fun k => 4 * (k : Int)) ++ [-1]

theorem close_indentsOf (h : levels.Pairwise (· > ·)) (depth : Nat) (above : List String) :
    Place.close (4 * (depth : Int)) (indentsOf levels) above =
      (indentsOf (levels.filter (· < depth)), above.drop (levels.filter (depth ≤ ·)).length) := by
  induction levels generalizing above with
  | nil =>
    have hopen : ¬ 4 * (depth : Int) ≤ -1 := by omega
    simp [indentsOf, Place.close, hopen]
  | cons k ks ih =>
    obtain ⟨hk, hks⟩ := pairwise_cons.1 h
    have hcons : indentsOf (k :: ks) = 4 * (k : Int) :: indentsOf ks := rfl
    rw [hcons, Place.close]
    by_cases hd : depth ≤ k
    · have hle : 4 * (depth : Int) ≤ 4 * (k : Int) := by omega
      rw [if_pos hle, ih hks, filter_cons_of_neg (by simpa using hd),
        filter_cons_of_pos (by simpa using hd), length_cons, drop_tail]
    · -- the depths descend, so nothing behind `k` is closed either
      have hle : ¬ 4 * (depth : Int) ≤ 4 * (k : Int) := by omega
      have hbelow : ∀ j ∈ k :: ks, j < depth := by
        intro j hj
        rcases mem_cons.1 hj with rfl | hj
        · omega
        · have hjk := hk j hj
          omega
      have hless : (k :: ks).filter (· < depth) = k :: ks :=
        filter_eq_self.2 fun j hj => by simpa using hbelow j hj
      have hnone : (k :: ks).filter (depth ≤ ·) = [] :=
        filter_eq_nil_iff.2 fun j hj => by simpa using hbelow j hj
      rw [if_neg hle, hless, hnone, hcons]
      rfl

/-- Of the depths from `depth` on, those that are not held are not closed. -/
theorem length_closed_add {count : Nat} (hnodup : levels.Nodup) (hbelow : ∀ k ∈ levels, k < count)
    (depth : Nat) :
    (levels.filter (depth ≤ ·)).length +
      ((range' depth (count - depth)).filter (· ∉ levels)).length = count - depth := by
  have hperm : (levels.filter (depth ≤ ·)).Perm
      ((range' depth (count - depth)).filter (· ∈ levels)) := by
    rw [perm_ext_iff_of_nodup (hnodup.filter _) (List.Nodup.filter _ nodup_range')]
    intro k
    simp only [mem_filter, mem_range'_1, decide_eq_true_eq, and_comm (a := k ∈ levels)]
    refine and_congr_left fun hk => ?_
    have := hbelow k hk
    omega
  have hsplit := length_eq_length_filter_add (l := range' depth (count - depth))
    fun k => decide (k ∈ levels)
  rw [length_range'] at hsplit
  simpa [hperm.length_eq] using hsplit.symm

/-! ### Stacks that agree -/

/-- The names are those of the path, and every depth of the path from `lo` on is open, but not
the one before `lo`. -/
structure Aligned (p : Place) (path : List String) (levels : List Nat) (lo : Nat) : Prop where
  above : p.above = path
  indents : p.indents = indentsOf levels
  indent : p.indent = if path = [] then -1 else 4 * (path.length : Int) - 4
  descending : levels.Pairwise (· > ·)
  below : ∀ k ∈ levels, k < path.length
  held : ∀ k, lo ≤ k → k < path.length → k ∈ levels
  gap : ∀ k, k + 1 = lo → k ∉ levels
  low : lo ≤ path.length

theorem aligned_start : Aligned {} [] [] 0 where
  above := rfl
  indents := rfl
  indent := rfl
  descending := List.Pairwise.nil
  below := by simp
  held := by simp
  gap := by simp
  low := Nat.le_refl 0

/-- A line stands under the right function, and the stacks agree behind it. -/
def Place.Follows (p : Place) (path : List String) (r : Row) (lo : Nat) : Prop :=
  (p.goTo r.entry.indent).above = enclosing path r.depth ∧
    ∃ levels, Aligned (p.enter r) (r.name :: enclosing path r.depth) levels lo

namespace Aligned

variable {p : Place} {lo : Nat}

theorem of_goTo {levels' : List Nat} {lo' : Nat} (hr : r.depth ≤ path.length)
    (hgo : p.goTo r.entry.indent = ⟨enclosing path r.depth, indentsOf levels', 4 * (r.depth : Int)⟩)
    (hdescending : levels'.Pairwise (· > ·)) (hbelow : ∀ k ∈ levels', k ≤ r.depth)
    (hheld : ∀ k, lo' ≤ k → k ≤ r.depth → k ∈ levels') (hgap : ∀ k, k + 1 = lo' → k ∉ levels')
    (hlow : lo' ≤ r.depth + 1) :
    p.Follows path r lo' := by
  have hlength := length_path_enter hr
  rw [Place.Follows, Place.enter, hgo]
  exact ⟨rfl, levels', {
    above := rfl
    indents := rfl
    indent := by
      rw [if_neg (cons_ne_nil _ _), hlength]
      push_cast
      omega
    descending := hdescending
    below := fun k hk => hlength ▸ Nat.lt_succ_of_le (hbelow k hk)
    held := fun k hlo hk => hheld k hlo (by omega)
    gap := hgap
    low := hlength ▸ hlow }⟩

variable (h : Aligned p path levels lo)
include h

theorem nodup : levels.Nodup := h.descending.imp fun hgt => Nat.ne_of_gt hgt

theorem indent_lt_iff (depth : Nat) : p.indent < 4 * (depth : Int) ↔ path.length ≤ depth := by
  rw [h.indent]
  split_ifs with hnil
  · rw [hnil, length_nil]
    omega
  · omega

theorem lt_indent_iff (depth : Nat) : 4 * (depth : Int) < p.indent ↔ depth + 1 < path.length := by
  rw [h.indent]
  split_ifs with hnil
  · rw [hnil, length_nil]
    omega
  · omega

theorem deeper (hr : r.depth = path.length) : p.Follows path r lo := by
  have hlow := h.low
  have hgo : p.goTo r.entry.indent =
      ⟨enclosing path r.depth, indentsOf (r.depth :: levels), 4 * (r.depth : Int)⟩ := by
    rw [r.indent_entry, Place.goTo, if_pos ((h.indent_lt_iff _).2 hr.ge), h.above, h.indents, hr,
      enclosing_self]
    rfl
  refine of_goTo hr.le hgo
    (pairwise_cons.2 ⟨fun k hk => hr ▸ h.below k hk, h.descending⟩) ?_ ?_ ?_ (by omega)
  · exact forall_mem_cons.2 ⟨Nat.le_refl _, fun k hk => hr ▸ Nat.le_of_lt (h.below k hk)⟩
  · intro k hlo hk
    rcases Nat.eq_or_lt_of_le hk with rfl | hlt
    · exact mem_cons_self
    · exact mem_cons_of_mem _ (h.held k hlo (hr ▸ hlt))
  · intro k hk
    exact not_mem_cons_of_ne_of_not_mem (by omega) (h.gap k hk)

theorem beside (hr : r.depth + 1 = path.length) : p.Follows path r lo := by
  refine of_goTo (by omega) ?_ h.descending
    (fun k hk => Nat.le_of_lt_succ ((h.below k hk).trans_eq hr.symm))
    (fun k hlo hk => h.held k hlo (by omega)) h.gap (hr ▸ h.low)
  have hdeep : ¬ p.indent < 4 * (r.depth : Int) := by
    rw [h.indent_lt_iff]
    omega
  have hback : ¬ 4 * (r.depth : Int) < p.indent := by
    rw [h.lt_indent_iff]
    omega
  rw [r.indent_entry, Place.goTo, if_neg hdeep, if_neg hback, h.above, h.indents, enclosing, ← hr,
    Nat.add_sub_cancel_left, drop_one]

theorem goTo_back (hr : r.depth + 1 < path.length) :
    p.goTo r.entry.indent =
      { above := path.drop (levels.filter (r.depth ≤ ·)).length,
        indents := indentsOf (levels.filter (· < r.depth)), indent := 4 * (r.depth : Int) } := by
  have hdeep : ¬ p.indent < 4 * (r.depth : Int) := by
    rw [h.indent_lt_iff]
    omega
  rw [r.indent_entry, Place.goTo, if_neg hdeep, if_pos ((h.lt_indent_iff _).2 hr), h.indents,
    h.above, close_indentsOf h.descending]

/-- A return to a depth from which on all are open closes the right names; its own depth is not
open afterwards. -/
theorem back (hr : r.depth + 1 < path.length) (hlo : lo ≤ r.depth) :
    p.Follows path r (r.depth + 1) := by
  have hless : ∀ k ∈ levels.filter (· < r.depth), k < r.depth := by simp
  have hclosed := length_closed_add h.nodup h.below r.depth
  have hheld : (range' r.depth (path.length - r.depth)).filter (· ∉ levels) = [] := by
    refine filter_eq_nil_iff.2 fun k hk => ?_
    rw [mem_range'_1] at hk
    simpa using h.held k (by omega) (by omega)
  rw [hheld, length_nil, Nat.add_zero] at hclosed
  refine of_goTo (by omega) ?_ (h.descending.filter _) (fun k hk => (hless k hk).le)
    (fun k _ _ => by omega) (fun k hk hmem => ?_) (Nat.le_refl _)
  · rw [h.goTo_back hr, hclosed, enclosing]
  · have := hless k hmem
    omega

/-- A return behind the depth that is not open leaves too many names. -/
theorem misplaced (hr : r.depth + 1 < path.length) (hlo : r.depth < lo) :
    ∃ n, n < path.length - r.depth ∧ (p.goTo r.entry.indent).above = path.drop n := by
  have hlow := h.low
  have hclosed := length_closed_add h.nodup h.below r.depth
  have hgap : lo - 1 ∈ (range' r.depth (path.length - r.depth)).filter (· ∉ levels) :=
    mem_filter.2 ⟨mem_range'_1.2 (by omega), by simpa using h.gap (lo - 1) (by omega)⟩
  have hpos := length_pos_of_mem hgap
  rw [h.goTo_back hr]
  exact ⟨_, by omega, rfl⟩

/-- A line that does not return behind the depth that is not open stands under the right function,
and the stacks agree behind it. -/
theorem enter (hr : r.depth ≤ path.length)
    (hlo : r.depth + 1 < path.length → lo ≤ r.depth) :
    p.Follows path r (if r.depth + 1 < path.length then r.depth + 1 else lo) := by
  by_cases hback : r.depth + 1 < path.length
  · rw [if_pos hback]
    exact h.back hback (hlo hback)
  · rw [if_neg hback]
    rcases Nat.lt_or_eq_of_le hr with hlt | heq
    · exact h.beside (by omega)
    · exact h.deeper heq

end Aligned

/-! ### Whole outlines -/

def Rising (lo last : Nat) (rows : List Row) : Prop :=
  (∀ k ∈ returns last (rows.map Row.depth), lo ≤ k) ∧
    (returns last (rows.map Row.depth)).Pairwise (· < ·)

theorem rising_cons_iff (lo last : Nat) (r : Row) (rest : List Row) :
    Rising lo last (r :: rest) ↔ (r.depth < last → lo ≤ r.depth) ∧
      Rising (if r.depth < last then r.depth + 1 else lo) r.depth rest := by
  unfold Rising
  rw [map_cons, returns]
  by_cases hr : r.depth < last
  · simp only [hr, if_true, mem_cons, forall_eq_or_imp, pairwise_cons, forall_const]
    constructor
    · rintro ⟨⟨hlo, _⟩, hnext, hpair⟩
      exact ⟨hlo, hnext, hpair⟩
    · rintro ⟨hlo, hnext, hpair⟩
      exact ⟨⟨hlo, fun k hk => by have := hnext k hk; omega⟩, hnext, hpair⟩
  · simp [hr]

theorem noted_eq_links {p : Place} {lo : Nat}
    (h : Aligned p path levels lo) (hnested : Nested path.length rows)
    (hrising : Rising lo (path.length - 1) rows) : noted p rows = links path rows := by
  induction rows generalizing p path levels lo with
  | nil => rfl
  | cons r rest ih =>
    obtain ⟨hdepth, hrest⟩ := hnested
    obtain ⟨hlo, htail⟩ := (rising_cons_iff _ _ _ _).1 hrising
    have hlt : r.depth < path.length - 1 ↔ r.depth + 1 < path.length := by omega
    simp only [hlt] at hlo htail
    obtain ⟨habove, levels', halign⟩ := h.enter hdepth hlo
    have hlength := length_path_enter hdepth
    have ih' := ih halign (by rwa [hlength]) (by rwa [hlength, Nat.add_sub_cancel])
    rw [noted, links, habove, ih']

theorem headD_drop_ne (hnodup : path.Nodup) (hne : ∀ x ∈ path, x ≠ "")
    {n m : Nat} (hnm : n < m) (hn : n < path.length) :
    (path.drop m).headD "" ≠ (path.drop n).headD "" := by
  have hdrop : path.drop n = path[n] :: path.drop (n + 1) := drop_eq_getElem_cons hn
  have hnot : path[n] ∉ path.drop (n + 1) := by
    have hsuffix : (path[n] :: path.drop (n + 1)).Nodup :=
      hdrop ▸ hnodup.sublist (drop_sublist n path)
    exact (nodup_cons.1 hsuffix).1
  rw [hdrop, headD_cons]
  cases hm : path.drop m with
  | nil => exact (hne _ (getElem_mem hn)).symm
  | cons x rest =>
    intro hx
    have hmem : path[n] ∈ path.drop m := by
      rw [hm, ← hx, headD_cons]
      exact mem_cons_self
    exact hnot ((drop_sublist_drop_left path hnm).subset hmem)

/-- If a return does not go deeper than the one before, a line stands under a wrong function. -/
theorem exists_misplaced {p : Place} {lo : Nat}
    (h : Aligned p path levels lo) (hnested : Nested path.length rows)
    (hrising : ¬ Rising lo (path.length - 1) rows) (hnodup : (path ++ rows.map Row.name).Nodup)
    (hne : ∀ x ∈ path ++ rows.map Row.name, x ≠ "") :
    ∃ l ∈ noted p rows, l.1 ≠ "" ∧ ∀ l' ∈ links path rows, l'.2.name = l.2.name → l'.1 ≠ l.1 := by
  induction rows generalizing p path levels lo with
  | nil => exact absurd ⟨by simp [returns], List.Pairwise.nil⟩ hrising
  | cons r rest ih =>
    obtain ⟨hdepth, hrest⟩ := hnested
    have hlt : r.depth < path.length - 1 ↔ r.depth + 1 < path.length := by omega
    have hnames : r.name ∉ rest.map Row.name := (nodup_cons.1 (nodup_append.1 hnodup).2.1).1
    rw [rising_cons_iff] at hrising
    simp only [hlt] at hrising
    by_cases hlo : r.depth + 1 < path.length → lo ≤ r.depth
    · -- the stacks agree behind this line, so the wrong one comes later
      obtain ⟨_, levels', halign⟩ := h.enter hdepth hlo
      have hlength := length_path_enter hdepth
      have hsublist : (enclosing path r.depth ++ r.name :: rest.map Row.name).Sublist
          (path ++ (r :: rest).map Row.name) :=
        (drop_sublist _ path).append (List.Sublist.refl _)
      have hperm : (r.name :: enclosing path r.depth ++ rest.map Row.name).Perm
          (enclosing path r.depth ++ r.name :: rest.map Row.name) := perm_middle.symm
      have hnodup' := hperm.nodup_iff.2 (hnodup.sublist hsublist)
      have hne' : ∀ x ∈ r.name :: enclosing path r.depth ++ rest.map Row.name, x ≠ "" :=
        fun x hx => hne x (hsublist.subset (hperm.subset hx))
      have hrising' : ¬ Rising (if r.depth + 1 < path.length then r.depth + 1 else lo)
          ((r.name :: enclosing path r.depth).length - 1) rest := by
        rw [hlength, Nat.add_sub_cancel]
        exact fun hnext => hrising ⟨hlo, hnext⟩
      obtain ⟨l, hl, hcaller, hlinks⟩ := ih halign (by rwa [hlength]) hrising' hnodup' hne'
      refine ⟨l, mem_cons_of_mem _ hl, hcaller, fun l' hl' hname => ?_⟩
      rcases mem_cons.1 hl' with rfl | hl'
      · exact absurd (hname ▸ mem_map_of_mem (snd_mem_of_mem_noted hl)) hnames
      · exact hlinks l' hl' hname
    · -- too many names are left, so the caller is one of those that should be closed
      obtain ⟨hback, hlo⟩ := Classical.not_imp.1 hlo
      obtain ⟨n, hn, habove⟩ := h.misplaced hback (Nat.lt_of_not_le hlo)
      have hpath : ∀ x ∈ path, x ≠ "" := fun x hx => hne x (mem_append_left _ hx)
      have hn' : n < path.length := by omega
      refine ⟨_, mem_cons_self, ?_, fun l' hl' hname => ?_⟩
      · rw [habove, drop_eq_getElem_cons hn']
        exact hpath _ (getElem_mem hn')
      · rcases mem_cons.1 hl' with rfl | hl'
        · rw [habove]
          exact headD_drop_ne (nodup_append.1 hnodup).1 hpath hn hn'
        · exact absurd (hname ▸ mem_map_of_mem (snd_mem_of_mem_links hl')) hnames

end CodeAtlas.Cflow
