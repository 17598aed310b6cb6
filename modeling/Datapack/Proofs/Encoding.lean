import Datapack.Text.Utf8

/-
  Datapack.Proofs.Encoding — texts as octets in UTF-8.

  What a text is written as is read back as that text (`glyphs_encode`): no part of it is
  ill-formed, so nothing is replaced (`isWellFormed_encode`, `readLossy_encode`). For one
  character that goes by the number of its octets, which is told by the first, and the
  further ones lie in the ranges that the first has left open (`glyphs_encodeChar`).

  The order of texts by their characters is that of their octets (`encode_lt`): of two
  characters the lesser one has, where their octets first differ, the lesser octet.
-/

namespace Datapack.Text.Utf8

def octets (s : String) : List UInt8 := s.toUTF8.data.toList

theorem octets_eq (s : String) : octets s = s.toList.flatMap String.utf8EncodeChar := by
  have h : s.toUTF8 = (s.toList.flatMap String.utf8EncodeChar).toByteArray := by
    rw [String.toUTF8_eq_toByteArray, ← String.utf8Encode_toList]
    rfl
  unfold octets
  rw [h, List.data_toByteArray]

/-! ## Reading back -/

theorem first_ofNat : ∀ n < 256, first (UInt8.ofNat n) =
    if n < 0x80 then .ascii (Char.ofNat n)
    else if n < 0xC2 then .refused
    else if n < 0xE0 then .lead ⟨1, 0x80, 0xBF, n - 0xC0⟩
    else if n = 0xE0 then .lead ⟨2, 0xA0, 0xBF, 0⟩
    else if n = 0xED then .lead ⟨2, 0x80, 0x9F, 0xD⟩
    else if n < 0xF0 then .lead ⟨2, 0x80, 0xBF, n - 0xE0⟩
    else if n = 0xF0 then .lead ⟨3, 0x90, 0xBF, 0⟩
    else if n < 0xF4 then .lead ⟨3, 0x80, 0xBF, n - 0xF0⟩
    else if n = 0xF4 then .lead ⟨3, 0x80, 0x8F, 4⟩
    else .refused := by
  decide +kernel

section

variable {b low high : UInt8} {n bits : Nat}

theorem takes_push (hb : b.toNat = n + 0x80) (hlow : low.toNat ≤ n + 0x80)
    (hhigh : n + 0x80 ≤ high.toNat) (need bits : Nat) :
    Pending.takes ⟨need, low, high, bits⟩ b = true ∧
      Pending.push ⟨need, low, high, bits⟩ b = bits * 64 + n := by
  unfold Pending.takes Pending.push
  simp only [Bool.and_eq_true, decide_eq_true_eq, UInt8.le_iff_toNat_le, hb]
  exact ⟨⟨hlow, hhigh⟩, by omega⟩

/-- A further octet in its range is taken, -/
theorem glyphsFrom_more (hb : b.toNat = n + 0x80) (hlow : low.toNat ≤ n + 0x80)
    (hhigh : n + 0x80 ≤ high.toNat) (need : Nat) (rest : List UInt8) :
    glyphsFrom (some ⟨need + 2, low, high, bits⟩) (b :: rest) =
      glyphsFrom (some ⟨need + 1, 0x80, 0xBF, bits * 64 + n⟩) rest := by
  obtain ⟨htakes, hpush⟩ := takes_push hb hlow hhigh (need + 2) bits
  rw [glyphsFrom, step, if_pos htakes, hpush, if_neg (by simp)]
  rfl

/-- and the last one completes its character. -/
theorem glyphsFrom_last (hb : b.toNat = n + 0x80) (hlow : low.toNat ≤ n + 0x80)
    (hhigh : n + 0x80 ≤ high.toNat) (rest : List UInt8) :
    glyphsFrom (some ⟨1, low, high, bits⟩) (b :: rest) =
      some (Char.ofNat (bits * 64 + n)) :: glyphs rest := by
  obtain ⟨htakes, hpush⟩ := takes_push hb hlow hhigh 1 bits
  rw [glyphsFrom, step, if_pos htakes, hpush, if_pos rfl]
  rfl

end

theorem glyphs_lead {b : UInt8} {p : Pending} (h : first b = .lead p) (rest : List UInt8) :
    glyphs (b :: rest) = glyphsFrom (some p) rest := by
  simp [glyphs, glyphsFrom, step, start, h]

theorem toNat_octet {n : Nat} (h : n < 256) : (UInt8.ofNat n).toNat = n := by
  rw [UInt8.toNat_ofNat', Nat.mod_eq_of_lt h]

/-- A further octet holds six bits, and unless its predecessors say otherwise it is in its
range. -/
theorem toNat_further (n : Nat) : (UInt8.ofNat (n % 64 + 0x80)).toNat = n % 64 + 0x80 :=
  toNat_octet (by omega)

theorem further_range (n : Nat) :
    (0x80 : UInt8).toNat ≤ n % 64 + 0x80 ∧ n % 64 + 0x80 ≤ (0xBF : UInt8).toNat := by
  show 128 ≤ n % 64 + 128 ∧ n % 64 + 128 ≤ 191
  omega

/-- Two octets, the first of which holds `a`. -/
theorem glyphs_two {a v : Nat} (ha : 2 ≤ a) (ha' : a < 32) (rest : List UInt8) :
    glyphs (UInt8.ofNat (a + 0xC0) :: UInt8.ofNat (v % 64 + 0x80) :: rest) =
      some (Char.ofNat (a * 64 + v % 64)) :: glyphs rest := by
  have hfirst : first (UInt8.ofNat (a + 0xC0)) = .lead ⟨1, 0x80, 0xBF, a⟩ := by
    rw [first_ofNat _ (by omega), if_neg (by omega), if_neg (by omega), if_pos (by omega),
      Nat.add_sub_cancel]
  obtain ⟨hl, hh⟩ := further_range v
  rw [glyphs_lead hfirst, glyphsFrom_last (toNat_further v) hl hh]

/-- Three octets, the first two of which hold `a` and `b`; no character has the values that
are not allowed here. -/
theorem glyphs_three {a u v : Nat} (ha : a < 16) (hlow : a = 0 → 0x20 ≤ u % 64)
    (hhigh : a = 13 → u % 64 < 0x20) (rest : List UInt8) :
    glyphs (UInt8.ofNat (a + 0xE0) :: UInt8.ofNat (u % 64 + 0x80) ::
      UInt8.ofNat (v % 64 + 0x80) :: rest) =
      some (Char.ofNat ((a * 64 + u % 64) * 64 + v % 64)) :: glyphs rest := by
  have hu : u % 64 < 64 := Nat.mod_lt _ (by decide)
  obtain ⟨low, high, hfirst, hl, hh⟩ : ∃ low high,
      first (UInt8.ofNat (a + 0xE0)) = .lead ⟨2, low, high, a⟩ ∧
        low.toNat ≤ u % 64 + 0x80 ∧ u % 64 + 0x80 ≤ high.toNat := by
    rw [first_ofNat _ (by omega), if_neg (by omega), if_neg (by omega), if_neg (by omega)]
    by_cases h0 : a = 0
    · exact ⟨0xA0, 0xBF, by simp [h0], by show 160 ≤ _; have := hlow h0; omega, by show _ ≤ 191; omega⟩
    by_cases h13 : a = 13
    · exact ⟨0x80, 0x9F, by simp [h13], by show 128 ≤ _; omega, by show _ ≤ 159; have := hhigh h13; omega⟩
    · refine ⟨0x80, 0xBF, ?_, by show 128 ≤ _; omega, by show _ ≤ 191; omega⟩
      rw [if_neg (by omega), if_neg (by omega), if_pos (by omega), Nat.add_sub_cancel]
  obtain ⟨hvl, hvh⟩ := further_range v
  rw [glyphs_lead hfirst, glyphsFrom_more (toNat_further u) hl hh 0,
    glyphsFrom_last (toNat_further v) hvl hvh]

/-- And four, where the first two hold `a` and `b`. -/
theorem glyphs_four {a t u v : Nat} (ha : a ≤ 4) (hlow : a = 0 → 0x10 ≤ t % 64)
    (hhigh : a = 4 → t % 64 < 0x10) (rest : List UInt8) :
    glyphs (UInt8.ofNat (a + 0xF0) :: UInt8.ofNat (t % 64 + 0x80) ::
      UInt8.ofNat (u % 64 + 0x80) :: UInt8.ofNat (v % 64 + 0x80) :: rest) =
      some (Char.ofNat (((a * 64 + t % 64) * 64 + u % 64) * 64 + v % 64)) :: glyphs rest := by
  have ht : t % 64 < 64 := Nat.mod_lt _ (by decide)
  obtain ⟨low, high, hfirst, hl, hh⟩ : ∃ low high,
      first (UInt8.ofNat (a + 0xF0)) = .lead ⟨3, low, high, a⟩ ∧
        low.toNat ≤ t % 64 + 0x80 ∧ t % 64 + 0x80 ≤ high.toNat := by
    rw [first_ofNat _ (by omega), if_neg (by omega), if_neg (by omega), if_neg (by omega),
      if_neg (by omega), if_neg (by omega), if_neg (by omega)]
    by_cases h0 : a = 0
    · exact ⟨0x90, 0xBF, by simp [h0], by show 144 ≤ _; have := hlow h0; omega, by show _ ≤ 191; omega⟩
    by_cases h4 : a = 4
    · exact ⟨0x80, 0x8F, by simp [h4], by show 128 ≤ _; omega, by show _ ≤ 143; have := hhigh h4; omega⟩
    · refine ⟨0x80, 0xBF, ?_, by show 128 ≤ _; omega, by show _ ≤ 191; omega⟩
      rw [if_neg (by omega), if_pos (by omega), Nat.add_sub_cancel]
  obtain ⟨hul, huh⟩ := further_range u
  obtain ⟨hvl, hvh⟩ := further_range v
  rw [glyphs_lead hfirst, glyphsFrom_more (toNat_further t) hl hh 1,
    glyphsFrom_more (toNat_further u) hul huh 0, glyphsFrom_last (toNat_further v) hvl hvh]

/-- The octets of a character are read as that character, whatever comes behind them. -/
theorem glyphs_encodeChar (c : Char) (rest : List UInt8) :
    glyphs (String.utf8EncodeChar c ++ rest) = some c :: glyphs rest := by
  have hc : Char.ofNat c.val.toNat = c := Char.ofNat_toNat c
  have hvalid := c.valid
  unfold UInt32.isValidChar Nat.isValidChar at hvalid
  unfold String.utf8EncodeChar
  generalize c.val.toNat = v at hc hvalid
  simp only
  split
  · have hsmall : UInt8.ofNat v < 0x80 := by
      rw [UInt8.lt_iff_toNat_lt, toNat_octet (by omega)]
      show v < 128
      omega
    rw [List.singleton_append, glyphs_cons_ascii hsmall, toNat_octet (by omega), hc]
  split
  · have hvalue : v / 64 % 0x20 * 64 + v % 64 = v := by omega
    have hread := glyphs_two (a := v / 64 % 0x20) (v := v) (by omega) (by omega) rest
    rw [hvalue, hc] at hread
    exact hread
  split
  · have hvalue : (v / 4096 % 0x10 * 64 + v / 64 % 64) * 64 + v % 64 = v := by omega
    have hread := glyphs_three (a := v / 4096 % 0x10) (u := v / 64) (v := v) (by omega) (by omega)
      (by omega) rest
    rw [hvalue, hc] at hread
    exact hread
  · have hvalue : ((v / 262144 % 0x08 * 64 + v / 4096 % 64) * 64 + v / 64 % 64) * 64 + v % 64 = v := by
      omega
    have hread := glyphs_four (a := v / 262144 % 0x08) (t := v / 4096) (u := v / 64) (v := v)
      (by omega) (by omega) (by omega) rest
    rw [hvalue, hc] at hread
    exact hread

/-- A text is read back from its octets, whatever stands behind it. -/
theorem glyphs_octets_append (s : String) (rest : List UInt8) :
    glyphs (octets s ++ rest) = s.toList.map some ++ glyphs rest := by
  rw [octets_eq]
  induction s.toList with
  | nil => rfl
  | cons c cs ih =>
    rw [List.flatMap_cons, List.append_assoc, glyphs_encodeChar, ih, List.map_cons, List.cons_append]

theorem glyphs_encode (s : String) : glyphs (octets s) = s.toList.map some := by
  have hnone : glyphs [] = [] := rfl
  rw [← List.append_nil (octets s), glyphs_octets_append, hnone, List.append_nil]

theorem isWellFormed_encode (s : String) : isWellFormed (octets s) = true := by
  simp [isWellFormed, glyphs_encode]

theorem readLossy_encode (s : String) : readLossy (octets s) = s := by
  rw [readLossy, glyphs_encode, List.map_map]
  have hread : ((·.getD replacement) ∘ some : Char → Char) = id := rfl
  rw [hread, List.map_id, String.ofList_toList]

/-! ## Order -/

theorem cons_lt_of {m n : Nat} {x y : List UInt8} (hm : m < 256) (hn : n < 256)
    (h : m < n ∨ m = n ∧ x < y) : UInt8.ofNat m :: x < UInt8.ofNat n :: y := by
  rw [List.cons_lt_cons_iff]
  rcases h with h | ⟨rfl, h⟩
  · left
    rwa [UInt8.lt_iff_toNat_lt, toNat_octet hm, toNat_octet hn]
  · exact .inr ⟨rfl, h⟩

/-- Octets of which each but the first was compared only where those before were the same. -/
theorem cons_lt_cons_of {m n m' n' : Nat} {x y : List UInt8} (hm : m < 256) (hn : n < 256)
    (hm' : m' < 256) (hn' : n' < 256) (h : m < n ∨ m = n ∧ (m' < n' ∨ m' = n' ∧ x < y)) :
    UInt8.ofNat m :: UInt8.ofNat m' :: x < UInt8.ofNat n :: UInt8.ofNat n' :: y :=
  cons_lt_of hm hn (h.imp_right (And.imp_right (cons_lt_of hm' hn')))

/-- Of two characters the lesser one has the lesser octets. -/
theorem encodeChar_lt {c c' : Char} (h : c < c') (x y : List UInt8) :
    String.utf8EncodeChar c ++ x < String.utf8EncodeChar c' ++ y := by
  have hlt : c.val.toNat < c'.val.toNat := h
  have hvalid' := c'.valid
  unfold UInt32.isValidChar Nat.isValidChar at hvalid'
  unfold String.utf8EncodeChar
  generalize c.val.toNat = v at hlt
  generalize c'.val.toNat = w at hlt hvalid'
  simp only
  -- The more octets there are, the greater is the first; if there are as many, the first
  -- that differs tells.
  split
  · split
    · exact cons_lt_of (by omega) (by omega) (.inl hlt)
    split
    · exact cons_lt_of (by omega) (by omega) (.inl (by omega))
    split
    · exact cons_lt_of (by omega) (by omega) (.inl (by omega))
    · exact cons_lt_of (by omega) (by omega) (.inl (by omega))
  rw [if_neg (show ¬ w ≤ 127 by omega)]
  split
  · split
    · have hdigits : v / 64 % 32 + 192 < w / 64 % 32 + 192 ∨
          v / 64 % 32 + 192 = w / 64 % 32 + 192 ∧ v % 64 + 128 < w % 64 + 128 := by
        omega
      exact cons_lt_cons_of (by omega) (by omega) (by omega) (by omega)
        (hdigits.imp_right (And.imp_right .inl))
    split
    · exact cons_lt_of (by omega) (by omega) (.inl (by omega))
    · exact cons_lt_of (by omega) (by omega) (.inl (by omega))
  rw [if_neg (show ¬ w ≤ 2047 by omega)]
  split
  · split
    · have hdigits : v / 4096 % 16 + 224 < w / 4096 % 16 + 224 ∨
          v / 4096 % 16 + 224 = w / 4096 % 16 + 224 ∧
            (v / 64 % 64 + 128 < w / 64 % 64 + 128 ∨
              v / 64 % 64 + 128 = w / 64 % 64 + 128 ∧ v % 64 + 128 < w % 64 + 128) := by
        omega
      refine cons_lt_cons_of (by omega) (by omega) (by omega) (by omega)
        (hdigits.imp_right (And.imp_right (Or.imp_right (And.imp_right fun hlast => ?_))))
      exact cons_lt_of (by omega) (by omega) (.inl hlast)
    · exact cons_lt_of (by omega) (by omega) (.inl (by omega))
  rw [if_neg (show ¬ w ≤ 65535 by omega)]
  -- The digits of one number lie one behind the other.
  have hv : v / 64 / 64 = v / 4096 ∧ v / 4096 / 64 = v / 262144 := by omega
  have hw : w / 64 / 64 = w / 4096 ∧ w / 4096 / 64 = w / 262144 := by omega
  have hsmall : v / 262144 < 8 ∧ w / 262144 < 8 := by omega
  have hfourth : v / 64 < w / 64 ∨ v / 64 = w / 64 ∧ v % 64 < w % 64 := by omega
  have hthird : v / 64 < w / 64 →
      v / 4096 < w / 4096 ∨ v / 4096 = w / 4096 ∧ v / 64 % 64 < w / 64 % 64 := by
    omega
  have hsecond : v / 4096 < w / 4096 →
      v / 262144 < w / 262144 ∨ v / 262144 = w / 262144 ∧ v / 4096 % 64 < w / 4096 % 64 := by
    omega
  have hdigits : v / 262144 % 8 + 240 < w / 262144 % 8 + 240 ∨
      v / 262144 % 8 + 240 = w / 262144 % 8 + 240 ∧
        (v / 4096 % 64 + 128 < w / 4096 % 64 + 128 ∨
          v / 4096 % 64 + 128 = w / 4096 % 64 + 128 ∧
            (v / 64 % 64 + 128 < w / 64 % 64 + 128 ∨
              v / 64 % 64 + 128 = w / 64 % 64 + 128 ∧ v % 64 + 128 < w % 64 + 128)) := by
    omega
  refine cons_lt_cons_of (by omega) (by omega) (by omega) (by omega)
    (hdigits.imp_right (And.imp_right (Or.imp_right (And.imp_right fun hlater => ?_))))
  exact cons_lt_cons_of (by omega) (by omega) (by omega) (by omega)
    (hlater.imp_right (And.imp_right .inl))

theorem encode_lt {s t : String} (h : s < t) : octets s < octets t := by
  rw [String.lt_iff] at h
  rw [octets_eq, octets_eq]
  generalize s.toList = cs at h
  generalize t.toList = ds at h
  induction cs generalizing ds with
  | nil =>
    cases ds with
    | nil => exact absurd h (List.lt_irrefl _)
    | cons d ds =>
      obtain ⟨b, rest, hb⟩ := List.exists_cons_of_ne_nil (String.utf8EncodeChar_ne_nil (c := d))
      rw [List.flatMap_cons, hb]
      exact List.nil_lt_cons _ _
  | cons c cs ih =>
    cases ds with
    | nil => exact absurd h (List.not_lt_nil _)
    | cons d ds =>
      rw [List.flatMap_cons, List.flatMap_cons]
      rcases List.cons_lt_cons_iff.1 h with hlt | ⟨rfl, hlt⟩
      · exact encodeChar_lt hlt _ _
      · exact List.append_left_lt (ih ds hlt)

end Datapack.Text.Utf8
