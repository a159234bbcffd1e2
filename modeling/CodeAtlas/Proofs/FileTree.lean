import CodeAtlas.FileTree
import CodeAtlas.Proofs.Dict
import CodeAtlas.Proofs.Fault

/-!
# Files read back

A text comes back from its bytes (`decodeUtf8_encodeUtf8`). The decoder is a
machine on bytes. From the start of a character, the bytes of a character take
it back to the start with just that character read (`foldl_decodeByte`). The
bounds that the decoder sets to a second byte rule out what no character is
written as.

Where a path leads to depends on the directories alone, so a text that was
written to a path is found under it again (`readText_writeText`).
-/

namespace CodeAtlas.Text

open List

variable {b lo : UInt8}

theorem decodeByte_first {n : Nat} {hi : UInt8} (h : tails? b = some (n + 1, lo, hi))
    (acc : List Char) (bad : Bool) :
    decodeByte (.start, acc, bad) b = (.inside (n + 1) lo hi (leadBits b (n + 1)), acc, bad) := by
  simp [decodeByte, utf8Step, utf8First, h]

theorem decodeByte_next {hi : UInt8} (hlo : lo ≤ b) (hhi : b ≤ hi) (n bits : Nat)
    (acc : List Char) (bad : Bool) :
    decodeByte (.inside (n + 2) lo hi bits, acc, bad) b =
      (.inside (n + 1) 0x80 0xbf (bits * 64 + b.toNat % 64), acc, bad) := by
  simp [decodeByte, utf8Step, hlo, hhi]

theorem decodeByte_last {hi : UInt8} (hlo : lo ≤ b) (hhi : b ≤ hi) (bits : Nat) (acc : List Char)
    (bad : Bool) :
    decodeByte (.inside 1 lo hi bits, acc, bad) b =
      (.start, Char.ofNat (bits * 64 + b.toNat % 64) :: acc, bad) := by
  simp [decodeByte, utf8Step, hlo, hhi]

theorem tails?_two (h : 0xc2 ≤ b.toNat ∧ b.toNat ≤ 0xdf) : tails? b = some (1, 0x80, 0xbf) := by
  simp only [tails?, UInt8.lt_iff_toNat_lt, UInt8.le_iff_toNat_le]
  simp [h.1, h.2]
  omega

theorem tails?_three (h : 0xe0 ≤ b.toNat ∧ b.toNat ≤ 0xef) :
    tails? b = some (2, if b = 0xe0 then 0xa0 else 0x80, if b = 0xed then 0x9f else 0xbf) := by
  by_cases he0 : b = 0xe0
  · subst he0
    rfl
  by_cases hed : b = 0xed
  · subst hed
    rfl
  have hne : b.toNat ≠ 0xe0 := fun hb => he0 (UInt8.toNat_inj.1 hb)
  have hlow : ¬ b.toNat < 128 ∧ ¬ b.toNat ≤ 223 := by omega
  have hhigh : 225 ≤ b.toNat := by omega
  simp [tails?, UInt8.lt_iff_toNat_lt, UInt8.le_iff_toNat_le, he0, hed, hlow, hhigh, h.2]

theorem tails?_four (h : 0xf0 ≤ b.toNat ∧ b.toNat ≤ 0xf4) :
    tails? b = some (3, if b = 0xf0 then 0x90 else 0x80, if b = 0xf4 then 0x8f else 0xbf) := by
  by_cases hf0 : b = 0xf0
  · subst hf0
    rfl
  by_cases hf4 : b = 0xf4
  · subst hf4
    rfl
  have hne : b.toNat ≠ 0xf0 ∧ b.toNat ≠ 0xf4 :=
    ⟨fun hb => hf0 (UInt8.toNat_inj.1 hb), fun hb => hf4 (UInt8.toNat_inj.1 hb)⟩
  have hlow : ¬ b.toNat < 128 ∧ ¬ b.toNat ≤ 223 ∧ ¬ b.toNat ≤ 239 := by omega
  have hlow' : b.toNat ≠ 0xe0 ∧ b.toNat ≠ 0xed := by omega
  have hhigh : 241 ≤ b.toNat ∧ b.toNat ≤ 243 := by omega
  simp [tails?, UInt8.lt_iff_toNat_lt, UInt8.le_iff_toNat_le, ← UInt8.toNat_inj, hne, hlow, hlow',
    hhigh]

section

variable {v : Nat} {b₁ b₂ b₃ b₄ : UInt8} (acc : List Char) (bad : Bool)

theorem tail_bounds {n : Nat} (h : b.toNat = n % 64 + 128) : (0x80 : UInt8) ≤ b ∧ b ≤ 0xbf := by
  simp only [UInt8.le_iff_toNat_le, UInt8.reduceToNat]
  omega

theorem foldl_decodeByte_two (hv : 0x80 ≤ v ∧ v < 0x800) (h₁ : b₁.toNat = v / 64 + 192)
    (h₂ : b₂.toNat = v % 64 + 128) :
    [b₁, b₂].foldl decodeByte (.start, acc, bad) = (.start, Char.ofNat v :: acc, bad) := by
  have hbits : leadBits b₁ 1 * 64 + b₂.toNat % 64 = v := by
    simp only [leadBits]
    omega
  obtain ⟨hlo, hhi⟩ := tail_bounds h₂
  rw [foldl_cons, foldl_cons, foldl_nil,
    decodeByte_first (tails?_two (by omega)), decodeByte_last hlo hhi, hbits]

theorem foldl_decodeByte_three (hv : 0x800 ≤ v ∧ v < 0x10000) (hchar : v < 0xd800 ∨ 0xdfff < v)
    (h₁ : b₁.toNat = v / 4096 + 224) (h₂ : b₂.toNat = v / 64 % 64 + 128)
    (h₃ : b₃.toNat = v % 64 + 128) :
    [b₁, b₂, b₃].foldl decodeByte (.start, acc, bad) = (.start, Char.ofNat v :: acc, bad) := by
  have hbits : (leadBits b₁ 2 * 64 + b₂.toNat % 64) * 64 + b₃.toNat % 64 = v := by
    simp only [leadBits]
    omega
  obtain ⟨hlo₂, hhi₂⟩ : (if b₁ = 0xe0 then 0xa0 else 0x80 : UInt8) ≤ b₂ ∧
      b₂ ≤ if b₁ = 0xed then 0x9f else 0xbf := by
    simp only [UInt8.le_iff_toNat_le, apply_ite UInt8.toNat, ← UInt8.toNat_inj, UInt8.reduceToNat]
    constructor <;> split <;> omega
  obtain ⟨hlo₃, hhi₃⟩ := tail_bounds h₃
  rw [foldl_cons, foldl_cons, foldl_cons, foldl_nil, decodeByte_first (tails?_three (by omega)),
    decodeByte_next hlo₂ hhi₂, decodeByte_last hlo₃ hhi₃, hbits]

theorem foldl_decodeByte_four (hv : 0x10000 ≤ v ∧ v < 0x110000)
    (h₁ : b₁.toNat = v / 262144 + 240) (h₂ : b₂.toNat = v / 4096 % 64 + 128)
    (h₃ : b₃.toNat = v / 64 % 64 + 128) (h₄ : b₄.toNat = v % 64 + 128) :
    [b₁, b₂, b₃, b₄].foldl decodeByte (.start, acc, bad) = (.start, Char.ofNat v :: acc, bad) := by
  have hbits : ((leadBits b₁ 3 * 64 + b₂.toNat % 64) * 64 + b₃.toNat % 64) * 64 + b₄.toNat % 64 =
      v := by
    simp only [leadBits]
    omega
  obtain ⟨hlo₂, hhi₂⟩ : (if b₁ = 0xf0 then 0x90 else 0x80 : UInt8) ≤ b₂ ∧
      b₂ ≤ if b₁ = 0xf4 then 0x8f else 0xbf := by
    simp only [UInt8.le_iff_toNat_le, apply_ite UInt8.toNat, ← UInt8.toNat_inj, UInt8.reduceToNat]
    constructor <;> split <;> omega
  obtain ⟨hlo₃, hhi₃⟩ := tail_bounds h₃
  obtain ⟨hlo₄, hhi₄⟩ := tail_bounds h₄
  rw [foldl_cons, foldl_cons, foldl_cons, foldl_cons, foldl_nil,
    decodeByte_first (tails?_four (by omega)), decodeByte_next hlo₂ hhi₂,
    decodeByte_next hlo₃ hhi₃, decodeByte_last hlo₄ hhi₄, hbits]

end

theorem foldl_decodeByte (c : Char) (acc : List Char) (bad : Bool) :
    (String.utf8EncodeChar c).foldl decodeByte (.start, acc, bad) = (.start, c :: acc, bad) := by
  have hvalid : c.toNat < 0xd800 ∨ 0xdfff < c.toNat ∧ c.toNat < 0x110000 := c.valid
  have hbyte : ∀ n m, n < 256 → n = m → (UInt8.ofNat n).toNat = m := fun n m hn hm =>
    (UInt8.toNat_ofNat_of_lt hn).trans hm
  have hval : c.val.toNat = c.toNat := rfl
  conv_rhs => rw [← Char.ofNat_toNat c]
  unfold String.utf8EncodeChar
  dsimp only
  rw [hval]
  generalize c.toNat = v at hvalid
  split
  · next hone =>
      have hlow : v < 0x80 := by omega
      have hv : (UInt8.ofNat v).toNat = v := hbyte v v (by omega) rfl
      simp [decodeByte, utf8Step, utf8First, tails?, UInt8.lt_iff_toNat_lt, hv, hlow]
  · split
    · exact foldl_decodeByte_two acc bad (by omega) (hbyte _ _ (by omega) (by omega))
        (hbyte _ _ (by omega) rfl)
    · split
      · exact foldl_decodeByte_three acc bad (by omega) (by omega)
          (hbyte _ _ (by omega) (by omega)) (hbyte _ _ (by omega) rfl) (hbyte _ _ (by omega) rfl)
      · exact foldl_decodeByte_four acc bad (by omega) (hbyte _ _ (by omega) (by omega))
          (hbyte _ _ (by omega) rfl) (hbyte _ _ (by omega) rfl) (hbyte _ _ (by omega) rfl)

theorem decodeUtf8_encodeUtf8 (s : String) : decodeUtf8 (encodeUtf8 s) = (s.toList, false) := by
  have hfold : ∀ (cs acc : List Char), (cs.flatMap String.utf8EncodeChar).foldl decodeByte
      (.start, acc, false) = (.start, cs.reverse ++ acc, false) := by
    intro cs
    induction cs with
    | nil => exact fun _ => rfl
    | cons c cs ih =>
      intro acc
      rw [flatMap_cons, foldl_append, foldl_decodeByte, ih]
      simp
  have hbytes : (encodeUtf8 s).foldl decodeByte (.start, [], false) =
      (.start, s.toList.reverse, false) := by
    simpa [encodeUtf8] using hfold s.toList []
  simp [decodeUtf8, hbytes]

theorem unifyLineEnds_eq_self {cs : List Char} (h : '\r' ∉ cs) : unifyLineEnds cs = cs := by
  fun_induction unifyLineEnds cs with
  | case1 => rfl
  | case2 cs ih => simp at h
  | case3 cs _ ih => simp at h
  | case4 c cs _ _ ih => rw [ih (not_mem_of_not_mem_cons h)]

end CodeAtlas.Text

namespace CodeAtlas.FileTree

open Text

variable {t t' : FileTree} {path text : String}

theorem follow?_withFiles (t : FileTree) (files : Dict (List UInt8)) (p : String)
    (names : List String) : follow? { t with files } p names = t.follow? p names := by
  induction names generalizing p with
  | nil => rfl
  | cons name rest ih =>
    rw [follow?, follow?, ih, ih]
    rfl

theorem reach?_withFiles (t : FileTree) (files : Dict (List UInt8)) (path : String) :
    reach? { t with files } path = t.reach? path := by
  unfold reach?
  rw [follow?_withFiles]

theorem writeText_eq_ok (h : t.writeText path text = .ok t') :
    ∃ p, t.reach? path = some p ∧
      t' = { t with files := Dict.set t.files p (encodeUtf8 text) } := by
  unfold writeText at h
  split at h
  · cases h
  · split at h
    · next p hp =>
        split at h
        · cases h
          exact ⟨p, hp, rfl⟩
        · cases h
    · split at h
      · cases h
      · cases h

theorem writeText_of_reach {p : String} (hdir : t.isDir path = false)
    (hreach : t.reach? path = some p) (hparent : t.dirs.contains (Path.dirName p) = true)
    (text : String) :
    t.writeText path text = .ok { t with files := Dict.set t.files p (encodeUtf8 text) } := by
  simp only [writeText, hdir, hreach, hparent, if_true]
  rfl

theorem goesOn_writeText (t : FileTree) (path text : String) : GoesOn (t.writeText path text) := by
  unfold writeText
  split
  · exact goesOn_error fun _ hn => by cases hn
  · repeat' split
    · exact goesOn_ok _
    all_goals exact goesOn_error fun _ hn => by cases hn

theorem goesOn_readText (t : FileTree) (path : String) : GoesOn (t.readText path) := by
  refine goesOn_bind ?_ fun bytes => ?_
  · unfold readBytes
    repeat' split
    · exact goesOn_ok _
    all_goals exact goesOn_error fun _ => nofun
  · dsimp only
    split
    · exact goesOn_error fun _ => nofun
    · exact goesOn_ok _

theorem readBytes_writeText (h : t.writeText path text = .ok t')
    (hslash : endsWith path "/" = false) (hdot : endsWith path "/." = false) :
    t'.readBytes path = .ok (encodeUtf8 text) := by
  obtain ⟨p, hp, rfl⟩ := writeText_eq_ok h
  have hget : (Dict.set t.files p (encodeUtf8 text)).get? p = some (encodeUtf8 text) := by
    rw [Dict.get?_set, if_pos rfl]
  have hfile : isFile { t with files := Dict.set t.files p (encodeUtf8 text) } path = true := by
    simp [isFile, reach?_withFiles, hp, Dict.has, hget, hslash, hdot]
  simp [readBytes, hfile, reach?_withFiles, hp, hget]

theorem readText_writeText (h : t.writeText path text = .ok t')
    (hslash : endsWith path "/" = false) (hdot : endsWith path "/." = false)
    (htext : '\r' ∉ text.toList) : t'.readText path = .ok text := by
  rw [readText, readBytes_writeText h hslash hdot]
  dsimp only [bind, Except.bind]
  rw [decodeUtf8_encodeUtf8]
  simp [unifyLineEnds_eq_self htext]
  rfl

theorem exists_of_readTextLoosely (h : t.readTextLoosely path = .ok text) :
    t.exists path = true := by
  obtain ⟨bytes, hbytes, -⟩ := exists_of_bind_eq_ok h
  rw [FileTree.exists, Bool.or_eq_true]
  by_contra hnone
  rw [not_or] at hnone
  rw [readBytes, if_neg hnone.1, if_neg hnone.2] at hbytes
  split at hbytes <;> cases hbytes

end CodeAtlas.FileTree
