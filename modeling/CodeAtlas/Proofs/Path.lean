import CodeAtlas.Path
import CodeAtlas.Proofs.Text

/-!
# Laws of paths

Normalizing takes the names of a path one by one (`pushName`). `Settled` says
that names taken so far would be taken again just so, and every step keeps it;
hence a normalized path is normal (`normalize_normalize`). From an absolute
working directory, paths are made absolute once and for all
(`absolute_absolute`). A path seen from a directory ends with the name of what
it leads to, unless that is the directory itself or one above it
(`endsWith_relative`).

The directories above a normalized path are its own beginnings `upTo p k`: each
is the directory of the next one (`dirName_upTo_succ`), and the shortest one is
its own directory.
-/

namespace CodeAtlas.Path

open Text
open List hiding take drop

variable {cwd : String} {front : List String} (rooted : Bool) (p : String) (acc : List String)

theorem toList_slash : "/".toList = ['/'] := rfl

/-! ### Beginnings -/

theorem start_cases :
    start p = "" ∧ isAbsolute p = false ∨
      (start p = "/" ∨ start p = "//") ∧ isAbsolute p = true := by
  unfold isAbsolute startsWith start
  rw [toList_slash]
  cases p.toList with
  | nil => exact .inl ⟨rfl, rfl⟩
  | cons c cs =>
    rw [startsWithList_single]
    by_cases hc : '/' = c
    · subst hc
      right
      rw [takeWhile_cons_of_pos (by simp), length_cons]
      generalize (cs.takeWhile (· == '/')).length = n
      rcases n with _ | _ | n <;> simp
    · left
      have hc' : ¬ c = '/' := fun h => hc h.symm
      simp [hc, hc']

theorem start_append {rest : String} (hrest : isAbsolute rest = false) :
    start ("/" ++ rest) = "/" ∧ start ("//" ++ rest) = "//" := by
  have htake : rest.toList.takeWhile (· == '/') = [] := by
    unfold isAbsolute startsWith at hrest
    rw [toList_slash] at hrest
    cases hcs : rest.toList with
    | nil => rfl
    | cons c cs =>
      rw [hcs, startsWithList_single] at hrest
      have hc : ¬ c = '/' := fun h => by simp [h] at hrest
      simp [hc]
  simp [start, htake]

theorem isAbsolute_join (h : isAbsolute cwd = true) : isAbsolute (join cwd p) = true := by
  have happend : ∀ rest, isAbsolute (cwd ++ rest) = true := by
    intro rest
    unfold isAbsolute startsWith at h ⊢
    rw [startsWithList_iff] at h ⊢
    rw [String.toList_append]
    exact h.trans (prefix_append _ _)
  unfold join
  split
  · assumption
  · split
    · exact happend p
    · rw [String.append_assoc]
      exact happend _

theorem endsWith_join (a b : String) : endsWith (join a b) b = true := by
  rw [endsWith_iff]
  unfold join
  split
  · exact suffix_rfl
  · split
    · rw [String.toList_append]
      exact suffix_append _ _
    · rw [String.toList_append]
      exact suffix_append _ _

/-! ### Normal paths -/

/-- A name that a normalized path can have. -/
structure IsName (name : String) : Prop where
  ne_empty : name ≠ ""
  ne_dot : name ≠ "."
  no_slash : '/' ∉ name.toList

theorem pushName_of_skip {name : String} (h : name = "" ∨ name = ".") :
    pushName rooted acc name = acc := by
  rcases h with rfl | rfl <;> rfl

theorem pushName_of_isName {name : String} (h : IsName name) (hup : name ≠ "..") :
    pushName rooted acc name = name :: acc := by
  simp [pushName, h.ne_empty, h.ne_dot, hup]

/-- Names, last first, that would be taken again just so. -/
structure Settled (rooted : Bool) (acc : List String) : Prop where
  names : ∀ name ∈ acc, IsName name
  again : acc.reverse.foldl (pushName rooted) [] = acc

theorem Settled.push {rooted : Bool} {acc : List String} (h : Settled rooted acc) {name : String}
    (hname : '/' ∉ name.toList) : Settled rooted (pushName rooted acc name) := by
  by_cases hskip : name = "" ∨ name = "."
  · rwa [pushName_of_skip rooted acc hskip]
  rw [not_or] at hskip
  have hname : IsName name := ⟨hskip.1, hskip.2, hname⟩
  by_cases hup : name = ".."
  · subst hup
    cases acc with
    | nil =>
      cases rooted with
      | true => exact h
      | false => exact ⟨forall_mem_singleton.2 hname, rfl⟩
    | cons top rest =>
      by_cases htop : top = ".."
      · have hpush : pushName rooted (top :: rest) ".." = ".." :: top :: rest := by
          simp [pushName, htop]
        rw [hpush]
        refine ⟨by simpa using ⟨hname, by simpa using h.names⟩, ?_⟩
        rw [reverse_cons, foldl_append, h.again]
        exact hpush
      · have hpush : pushName rooted (top :: rest) ".." = rest := by
          simp [pushName, htop]
        have hagain := h.again
        rw [reverse_cons, foldl_append, foldl_cons, foldl_nil,
          pushName_of_isName _ _ (h.names top mem_cons_self) htop] at hagain
        rw [hpush]
        exact ⟨fun n hn => h.names n (mem_cons_of_mem _ hn), (cons.inj hagain).2⟩
  · rw [pushName_of_isName rooted acc hname hup]
    refine ⟨by simpa using ⟨hname, h.names⟩, ?_⟩
    rw [reverse_cons, foldl_append, h.again]
    exact pushName_of_isName rooted acc hname hup

theorem settled_split : Settled rooted ((split p "/").foldl (pushName rooted) []) :=
  foldlRecOn (motive := Settled rooted) _ _ ⟨by simp, rfl⟩ fun _ hacc _ hname =>
    hacc.push (not_mem_of_mem_split rfl hname)

theorem foldl_pushName_skip (h : ∀ name ∈ front, name = "") :
    front.foldl (pushName rooted) acc = acc := by
  induction front with
  | nil => rfl
  | cons name front ih =>
    rw [forall_mem_cons] at h
    rw [foldl_cons, pushName_of_skip rooted acc (.inl h.1), ih h.2]

/-- A path whose names are settled, behind empty ones, is put together from them again. -/
theorem normalize_of_settled {p : String} {names : List String}
    (hsplit : split p "/" = front ++ names) (hfront : ∀ name ∈ front, name = "")
    (hsettled : Settled (isAbsolute p) names.reverse) (hp : p = start p ++ Text.join "/" names)
    (hne : p.isEmpty = false) : normalize p = p := by
  have hfold : (split p "/").foldl (pushName (isAbsolute p)) [] = names.reverse := by
    have hagain := hsettled.again
    rw [reverse_reverse] at hagain
    rw [hsplit, foldl_append, foldl_pushName_skip _ _ hfront, hagain]
  simp only [normalize, hne, hfold, reverse_reverse, ← hp]
  simp

theorem isAbsolute_join_names {names : List String} (hne : names ≠ [])
    (hnames : ∀ name ∈ names, IsName name) : isAbsolute (Text.join "/" names) = false := by
  rw [Bool.eq_false_iff]
  intro habsolute
  have hsplit : split (Text.join "/" names) "/" = names :=
    split_join rfl hne fun name hname => (hnames name hname).no_slash
  rw [isAbsolute, startsWith, startsWithList_iff] at habsolute
  obtain ⟨rest, hrest⟩ := habsolute
  have hsplit' : split (Text.join "/" names) "/" =
      "" :: (splitList ['/'] rest).map String.ofList := by
    rw [split, ← hrest]
    exact congrArg (map String.ofList) (splitList_append not_mem_nil rest)
  rw [hsplit] at hsplit'
  exact (hnames "" (hsplit' ▸ mem_cons_self)).ne_empty rfl

theorem join_empty_cons {names : List String} (hne : names ≠ []) :
    Text.join "/" ("" :: names) = "/" ++ Text.join "/" names := by
  obtain ⟨name, rest, rfl⟩ := exists_cons_of_ne_nil hne
  simp [Text.join]

/-- The slashes of a path, in front of names, are empty names in front of them. -/
theorem exists_front {names : List String} (hne : names ≠ []) :
    ∃ front : List String, (∀ name ∈ front, name = "") ∧
      start p ++ Text.join "/" names = Text.join "/" (front ++ names) := by
  rcases start_cases p with ⟨hstart, -⟩ | ⟨hstart | hstart, -⟩
  · rw [hstart, String.empty_append]
    exact ⟨[], by simp, rfl⟩
  · rw [hstart]
    exact ⟨[""], by simp, (join_empty_cons hne).symm⟩
  · rw [hstart]
    refine ⟨["", ""], by simp, ?_⟩
    rw [cons_append, join_empty_cons (by simp), cons_append, nil_append,
      join_empty_cons hne, ← String.append_assoc]
    rfl

theorem split_start_append_join {names : List String} (hne : names ≠ [])
    (hnames : ∀ name ∈ names, '/' ∉ name.toList) :
    ∃ front : List String, (∀ name ∈ front, name = "") ∧
      split (start p ++ Text.join "/" names) "/" = front ++ names := by
  obtain ⟨front, hfront, hjoin⟩ := exists_front p hne
  refine ⟨front, hfront, ?_⟩
  rw [hjoin]
  refine split_join rfl (by simp [hne]) fun name hname => ?_
  rcases mem_append.1 hname with hname | hname
  · simp [hfront name hname]
  · exact hnames name hname

theorem start_append_join {names : List String} (hne : names ≠ [])
    (hnames : ∀ name ∈ names, IsName name) : start (start p ++ Text.join "/" names) = start p := by
  have hrel : isAbsolute (Text.join "/" names) = false := isAbsolute_join_names hne hnames
  rcases start_cases p with ⟨hstart, -⟩ | ⟨hstart | hstart, -⟩
  · rw [hstart, String.empty_append]
    rcases start_cases (Text.join "/" names) with ⟨hjoin, -⟩ | ⟨-, habsolute⟩
    · exact hjoin
    · rw [hrel] at habsolute
      cases habsolute
  · rw [hstart]
    exact (start_append hrel).1
  · rw [hstart]
    exact (start_append hrel).2

theorem isAbsolute_of_start_eq {p p' : String} (h : start p = start p') :
    isAbsolute p = isAbsolute p' := by
  rcases start_cases p with ⟨hp, ha⟩ | ⟨hp, ha⟩ <;>
    rcases start_cases p' with ⟨hp', ha'⟩ | ⟨hp', ha'⟩ <;>
    simp_all

theorem normalize_joined {names : List String} (hne : names ≠ [])
    (hsettled : Settled (isAbsolute p) names.reverse)
    (hwhole : (start p ++ Text.join "/" names).isEmpty = false) :
    normalize (start p ++ Text.join "/" names) = start p ++ Text.join "/" names := by
  have hnames : ∀ name ∈ names, IsName name := fun name hname =>
    hsettled.names name (mem_reverse.2 hname)
  have hstart := start_append_join p hne hnames
  obtain ⟨front, hfront, hsplit⟩ := split_start_append_join p hne fun name hname =>
    (hnames name hname).no_slash
  refine normalize_of_settled hsplit hfront ?_ (by rw [hstart]) hwhole
  rwa [isAbsolute_of_start_eq hstart]

theorem normalize_cases :
    (normalize p = "." ∨ normalize p = "/" ∨ normalize p = "//") ∨
      ∃ names : List String, names ≠ [] ∧ Settled (isAbsolute p) names.reverse ∧
        (start p ++ Text.join "/" names).isEmpty = false ∧
        normalize p = start p ++ Text.join "/" names := by
  by_cases hempty : p.isEmpty = true
  · exact .inl (.inl (by simp [normalize, hempty]))
  have hsettled := settled_split (isAbsolute p) p
  obtain ⟨names, hnames⟩ : ∃ names : List String,
      names.reverse = (split p "/").foldl (pushName (isAbsolute p)) [] :=
    ⟨_, reverse_reverse _⟩
  have hp : normalize p = if (start p ++ Text.join "/" names).isEmpty then "."
      else start p ++ Text.join "/" names := by
    simp [normalize, hempty, ← hnames]
  rw [← hnames] at hsettled
  cases hwhole : (start p ++ Text.join "/" names).isEmpty with
  | true => exact .inl (.inl (by rw [hp, if_pos hwhole]))
  | false =>
    rw [hwhole, if_neg (by simp)] at hp
    by_cases hne : names = []
    · subst hne
      have hjoin : Text.join "/" [] = "" := rfl
      rw [hjoin, String.append_empty] at hwhole hp
      rcases start_cases p with ⟨hstart, -⟩ | ⟨hstart, -⟩
      · rw [hstart] at hwhole
        cases hwhole
      · rw [hp]
        exact .inl (.inr hstart)
    · exact .inr ⟨names, hne, hsettled, hwhole, hp⟩

theorem normalize_normalize : normalize (normalize p) = normalize p := by
  rcases normalize_cases p with (hp | hp | hp) | ⟨names, hne, hsettled, hwhole, hp⟩
  · rw [hp]
    rfl
  · rw [hp]
    rfl
  · rw [hp]
    rfl
  · rw [hp]
    exact normalize_joined p hne hsettled hwhole

theorem isAbsolute_normalize {p : String} (h : isAbsolute p = true) :
    isAbsolute (normalize p) = true := by
  have happend : ∀ rest,
      isAbsolute (start p ++ rest) = true ∧ (start p ++ rest).isEmpty = false := by
    intro rest
    rcases start_cases p with ⟨-, hp⟩ | ⟨hstart | hstart, -⟩
    · rw [h] at hp
      cases hp
    · simp [hstart, isAbsolute, startsWith, startsWithList, dropStart?]
    · simp [hstart, isAbsolute, startsWith, startsWithList, dropStart?]
  have hp : p.isEmpty = false := by
    rw [Bool.eq_false_iff]
    intro hp
    rw [String.isEmpty_iff.1 hp] at h
    cases h
  simp only [normalize, hp]
  rw [if_neg (by simp), if_neg (by rw [(happend _).2]; simp)]
  exact (happend _).1

theorem isAbsolute_absolute (h : isAbsolute cwd = true) : isAbsolute (absolute cwd p) = true :=
  isAbsolute_normalize (isAbsolute_join p h)

theorem normalize_absolute (cwd : String) : normalize (absolute cwd p) = absolute cwd p :=
  normalize_normalize (join cwd p)

theorem absolute_absolute (h : isAbsolute cwd = true) :
    absolute cwd (absolute cwd p) = absolute cwd p := by
  have hjoin : join cwd (absolute cwd p) = absolute cwd p := by
    rw [join, if_pos (isAbsolute_absolute p h)]
  rw [absolute, hjoin, normalize_absolute]

/-! ### Base names -/

theorem split_eq_append_baseName : ∃ front, split p "/" = front ++ [baseName p] := by
  have hne : split p "/" ≠ [] := by simp [split, splitList]
  refine ⟨(split p "/").dropLast, ?_⟩
  rw [baseName, getLastD_eq_getLast?, getLast?_eq_some_getLast hne, Option.getD_some,
    dropLast_append_getLast hne]

theorem endsWith_baseName : endsWith p (baseName p) = true := by
  obtain ⟨front, hfront⟩ := split_eq_append_baseName p
  have hjoin : Text.join "/" (front ++ [baseName p]) = p := by
    rw [← hfront, join_split p toList_slash]
  have hends := Text.endsWith_join "/" front (baseName p)
  rwa [hjoin] at hends

theorem names_eq_append_baseName {p : String} (h : baseName p ≠ "") :
    ∃ front, names p = front ++ [baseName p] := by
  obtain ⟨front, hfront⟩ := split_eq_append_baseName p
  refine ⟨front.filter (!·.isEmpty), ?_⟩
  rw [names, hfront, filter_append]
  simp [h]

theorem take_commonLength_prefix (source target : List String) :
    target.take (commonLength source target) <+: source := by
  induction source generalizing target with
  | nil => simp [commonLength]
  | cons a source ih =>
    cases target with
    | nil => simp [commonLength]
    | cons b target =>
      rw [commonLength]
      by_cases hab : a = b
      · simpa [hab] using ih target
      · simp [hab]

/-- A path seen from a directory ends with the base name of what it leads to, unless that is the
directory or lies above it. -/
theorem endsWith_relative {p dir : String}
    (h : ¬ names (absolute cwd p) <+: names (absolute cwd dir)) :
    endsWith (relative cwd p dir) (baseName (absolute cwd p)) = true := by
  by_cases hbase : baseName (absolute cwd p) = ""
  · simp [hbase, endsWith_iff]
  obtain ⟨front, hfront⟩ := names_eq_append_baseName hbase
  have hlength : (names (absolute cwd p)).length = front.length + 1 := by simp [hfront]
  have hcommon :
      commonLength (names (absolute cwd dir)) (names (absolute cwd p)) ≤ front.length := by
    by_contra hlong
    have hprefix := take_commonLength_prefix (names (absolute cwd dir)) (names (absolute cwd p))
    rw [take_of_length_le (by omega)] at hprefix
    exact h hprefix
  unfold relative
  dsimp only
  rw [hfront] at hcommon ⊢
  rw [drop_append_of_le_length hcommon, ← append_assoc]
  split
  · next hnil => simp at hnil
  · exact Text.endsWith_join "/" _ _

/-! ### The directories above -/

def upTo (p : String) (k : Nat) : String := start p ++ Text.join "/" ((names p).take k)

theorem of_mem_names {p name : String} (h : name ∈ names p) : name ≠ "" ∧ '/' ∉ name.toList := by
  obtain ⟨hsplit, hne⟩ := mem_filter.1 h
  exact ⟨by simpa using hne, not_mem_of_mem_split rfl hsplit⟩

theorem upTo_zero : upTo p 0 = start p := by
  rw [upTo, take_zero]
  exact String.append_empty

theorem upTo_normalize : upTo (normalize p) (names (normalize p)).length = normalize p := by
  rw [upTo, take_length]
  rcases normalize_cases p with (hp | hp | hp) | ⟨ns, hne, hsettled, -, hp⟩
  · rw [hp]
    decide
  · rw [hp]
    decide
  · rw [hp]
    decide
  · have hns : ∀ name ∈ ns, IsName name := fun name hname =>
      hsettled.names name (mem_reverse.2 hname)
    obtain ⟨front, hfront, hsplit⟩ := split_start_append_join p hne fun name hname =>
      (hns name hname).no_slash
    have hnames : names (normalize p) = ns := by
      rw [hp, names, hsplit, filter_append]
      rw [filter_eq_nil_iff.2 fun name hname => by simp [hfront name hname]]
      rw [filter_eq_self.2 fun name hname => by simp [(hns name hname).ne_empty]]
      rfl
    rw [hnames, hp, start_append_join p hne hns]

section

variable {p : String} {k : Nat}

theorem upTo_succ (hk : k < (names p).length) :
    upTo p (k + 1) = (if k = 0 then start p else upTo p k ++ "/") ++ (names p)[k] := by
  rw [upTo, take_succ_eq_append_getElem hk]
  cases k with
  | zero => simp [Text.join]
  | succ k =>
    obtain ⟨name, rest, hrest⟩ : ∃ name rest, (names p).take (k + 1) = name :: rest :=
      exists_cons_of_ne_nil fun hnil => by simp_all
    rw [upTo, hrest, join_concat]
    simp [String.append_assoc]

theorem baseName_upTo_succ (hk : k < (names p).length) :
    baseName (upTo p (k + 1)) = (names p)[k] := by
  have hne : (names p).take (k + 1) ≠ [] := by
    rw [take_succ_eq_append_getElem hk]
    exact concat_ne_nil _ _
  obtain ⟨front, -, hsplit⟩ := split_start_append_join p hne fun name hname =>
    (of_mem_names (mem_of_mem_take hname)).2
  rw [baseName, upTo, hsplit, take_succ_eq_append_getElem hk, ← append_assoc]
  exact getLastD_concat

theorem dirName_append {head base : String} (h : baseName (head ++ base) = base) :
    dirName (head ++ base) =
      if head.toList.all (· == '/') then head else stripEndChars head "/" := by
  have hhead : take (head ++ base) (size (head ++ base) - size base) = head := by
    simp [take, size]
  rw [dirName, h, hhead]

theorem stripEndChars_slash {s name : String} (hne : name ≠ "") (hname : '/' ∉ name.toList) :
    stripEndChars (s ++ name ++ "/") "/" = s ++ name := by
  obtain ⟨cs, c, hcs⟩ := eq_nil_or_concat name.toList |>.resolve_left (by simpa using hne)
  have hc : c ≠ '/' := by
    rintro rfl
    simp [hcs] at hname
  rw [← String.toList_inj]
  simp [stripEndChars, trimEndList, hcs, hc]

theorem dirName_upTo_succ (hk : k < (names p).length) : dirName (upTo p (k + 1)) = upTo p k := by
  have hbase := baseName_upTo_succ hk
  rw [upTo_succ hk] at hbase ⊢
  rw [dirName_append hbase]
  cases k with
  | zero =>
    rw [if_pos rfl, upTo_zero]
    rcases start_cases p with ⟨hstart, -⟩ | ⟨hstart | hstart, -⟩ <;> simp [hstart]
  | succ k =>
    have hk' : k < (names p).length := Nat.lt_of_succ_lt hk
    obtain ⟨hne, hslash⟩ := of_mem_names (getElem_mem hk')
    rw [if_neg (Nat.succ_ne_zero k), upTo_succ hk', stripEndChars_slash hne hslash, if_neg]
    intro hall
    obtain ⟨c, hc⟩ := exists_mem_of_ne_nil _ (mt String.toList_eq_nil_iff.1 hne)
    have hc' := all_eq_true.1 hall c (by simp only [String.toList_append, mem_append, hc,
      or_true, true_or])
    rw [beq_iff_eq.1 hc'] at hc
    exact hslash hc

theorem dirName_upTo_zero (p : String) : dirName (upTo p 0) = upTo p 0 := by
  rw [upTo_zero]
  rcases start_cases p with ⟨hstart, -⟩ | ⟨hstart | hstart, -⟩ <;> rw [hstart] <;> decide

theorem size_upTo_lt (hk : k < (names p).length) : size (upTo p k) < size (upTo p (k + 1)) := by
  have hpos : 0 < (names p)[k].toList.length := length_pos_iff.2
    (mt String.toList_eq_nil_iff.1 (of_mem_names (getElem_mem hk)).1)
  rw [upTo_succ hk]
  cases k with
  | zero =>
    rw [if_pos rfl, upTo_zero, size, size, String.toList_append, length_append]
    omega
  | succ k =>
    rw [if_neg (Nat.succ_ne_zero k), size, size, String.toList_append,
      String.toList_append, length_append, length_append]
    omega

theorem le_size_upTo (hk : k ≤ (names p).length) : k ≤ size (upTo p k) := by
  induction k with
  | zero => exact Nat.zero_le _
  | succ k ih => exact Nat.lt_of_le_of_lt (ih (Nat.le_of_succ_le hk)) (size_upTo_lt hk)

end

theorem length_names_normalize_le : (names (normalize p)).length ≤ size (normalize p) := by
  have hle := le_size_upTo (p := normalize p) (Nat.le_refl _)
  rwa [upTo_normalize] at hle

theorem upTo_absolute_zero (h : isAbsolute cwd = true) :
    upTo (absolute cwd p) 0 = "/" ∨ upTo (absolute cwd p) 0 = "//" := by
  rw [upTo_zero]
  rcases start_cases (absolute cwd p) with ⟨-, hrelative⟩ | ⟨hstart, -⟩
  · rw [isAbsolute_absolute _ h] at hrelative
    cases hrelative
  · exact hstart

end CodeAtlas.Path
