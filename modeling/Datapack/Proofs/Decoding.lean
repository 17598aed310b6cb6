import Datapack.Proofs.Encoding

/-
  Datapack.Proofs.Decoding — octets that may be damaged, read as characters.

  Reading never makes a character up: where one is read, its octets stand
  (`encode_of_glyphs`). Which they are is told by the first, as in writing; that each
  further one was taken says that it holds six bits, and the ranges say that the value is
  that of a character and is written with no fewer octets (`encodeChar_two` and the others).

  So the characters that are read in front of the first ill-formed part are the octets of a
  text, and no longer text stands there (`exists_sound`): that part begins where the
  octets stop being those of a text. Octets are ill-formed somewhere exactly if they are
  those of no text at all (`isWellFormed_iff`), be it with a byte order mark in front or
  without (`not_isWellFormed_dropMark`).
-/

namespace Datapack.Text.Utf8

/-! ## Writing what was read -/

section

variable {n v : Nat}

theorem toNat_ofNat (h : n.isValidChar) : (Char.ofNat n).val.toNat = n := by
  unfold Char.ofNat Char.ofNatAux
  rw [dif_pos h]
  rfl

theorem encodeChar_one (h : v < 0x80) : String.utf8EncodeChar (Char.ofNat v) = [UInt8.ofNat v] := by
  have hv := toNat_ofNat (n := v) (.inl (by omega))
  unfold String.utf8EncodeChar
  simp only [hv]
  rw [if_pos (by omega)]

theorem encodeChar_two {a : Nat} (ha : 2 ≤ a) (ha' : a < 32) (hv : v < 64) :
    String.utf8EncodeChar (Char.ofNat (a * 64 + v)) =
      [UInt8.ofNat (a + 0xC0), UInt8.ofNat (v + 0x80)] := by
  have hn := toNat_ofNat (n := a * 64 + v) (.inl (by omega))
  have hfirst : (a * 64 + v) / 64 % 0x20 = a := by omega
  have hlast : (a * 64 + v) % 64 = v := by omega
  unfold String.utf8EncodeChar
  simp only [hn]
  rw [if_neg (by omega), if_pos (by omega), hfirst, hlast]

theorem encodeChar_three {a u : Nat} (ha : a < 16) (hu : u < 64) (hv : v < 64)
    (hlow : a = 0 → 0x20 ≤ u) (hhigh : a = 13 → u < 0x20) :
    String.utf8EncodeChar (Char.ofNat ((a * 64 + u) * 64 + v)) =
      [UInt8.ofNat (a + 0xE0), UInt8.ofNat (u + 0x80), UInt8.ofNat (v + 0x80)] := by
  have hvalid : ((a * 64 + u) * 64 + v).isValidChar := by
    unfold Nat.isValidChar
    omega
  have hn := toNat_ofNat hvalid
  have hfirst : ((a * 64 + u) * 64 + v) / 4096 % 0x10 = a := by omega
  have hnext : ((a * 64 + u) * 64 + v) / 64 % 64 = u := by omega
  have hlast : ((a * 64 + u) * 64 + v) % 64 = v := by omega
  unfold String.utf8EncodeChar
  simp only [hn]
  rw [if_neg (by omega), if_neg (by omega), if_pos (by omega), hfirst, hnext, hlast]

theorem encodeChar_four {a t u : Nat} (ha : a ≤ 4) (ht : t < 64) (hu : u < 64) (hv : v < 64)
    (hlow : a = 0 → 0x10 ≤ t) (hhigh : a = 4 → t < 0x10) :
    String.utf8EncodeChar (Char.ofNat (((a * 64 + t) * 64 + u) * 64 + v)) =
      [UInt8.ofNat (a + 0xF0), UInt8.ofNat (t + 0x80), UInt8.ofNat (u + 0x80),
        UInt8.ofNat (v + 0x80)] := by
  have hvalid : (((a * 64 + t) * 64 + u) * 64 + v).isValidChar := by
    unfold Nat.isValidChar
    omega
  have hn := toNat_ofNat hvalid
  have hfirst : (((a * 64 + t) * 64 + u) * 64 + v) / 262144 % 0x08 = a := by omega
  have hsecond : (((a * 64 + t) * 64 + u) * 64 + v) / 4096 % 64 = t := by omega
  have hnext : (((a * 64 + t) * 64 + u) * 64 + v) / 64 % 64 = u := by omega
  have hlast : (((a * 64 + t) * 64 + u) * 64 + v) % 64 = v := by omega
  unfold String.utf8EncodeChar
  simp only [hn]
  rw [if_neg (by omega), if_neg (by omega), if_neg (by omega), hfirst, hsecond, hnext, hlast]

end

/-! ## What a character was read from -/

section

variable {low high : UInt8} {need bits : Nat} {bytes : List UInt8} {c : Char}
  {gs : List (Option Char)}

/-- A character that is awaited and comes has its next octet in range, -/
theorem takes_of_glyphsFrom (hlow : 0x80 ≤ low.toNat) (hhigh : high.toNat ≤ 0xBF)
    (h : glyphsFrom (some ⟨need, low, high, bits⟩) bytes = some c :: gs) :
    ∃ n rest, bytes = UInt8.ofNat (n + 0x80) :: rest ∧ n < 64 ∧ low.toNat ≤ n + 0x80 ∧
      n + 0x80 ≤ high.toNat ∧
      if need = 1 then some (Char.ofNat (bits * 64 + n)) :: glyphs rest = some c :: gs
      else glyphsFrom (some ⟨need - 1, 0x80, 0xBF, bits * 64 + n⟩) rest = some c :: gs := by
  cases bytes with
  | nil => cases h
  | cons b rest =>
    rw [glyphsFrom] at h
    by_cases htakes : Pending.takes ⟨need, low, high, bits⟩ b = true
    · have hrange := htakes
      simp only [Pending.takes, Bool.and_eq_true, decide_eq_true_eq, UInt8.le_iff_toNat_le] at hrange
      have hb : b.toNat - 0x80 + 0x80 = b.toNat := by omega
      refine ⟨b.toNat - 0x80, rest, ?_, by omega, by omega, by omega, ?_⟩
      · rw [hb, UInt8.ofNat_toNat]
      · rw [step, if_pos htakes] at h
        split
        · rename_i hone
          rw [if_pos hone] at h
          exact h
        · rename_i hmore
          rw [if_neg hmore] at h
          exact h
    · rw [step, if_neg htakes] at h
      cases h

/-- and so have all its others: they are in the range of any further octet. -/
theorem last_of_glyphsFrom (hlow : 0x80 ≤ low.toNat) (hhigh : high.toNat ≤ 0xBF)
    (h : glyphsFrom (some ⟨1, low, high, bits⟩) bytes = some c :: gs) :
    ∃ v rest, bytes = UInt8.ofNat (v + 0x80) :: rest ∧ v < 64 ∧ low.toNat ≤ v + 0x80 ∧
      v + 0x80 ≤ high.toNat ∧ c = Char.ofNat (bits * 64 + v) ∧ glyphs rest = gs := by
  obtain ⟨v, rest, hbytes, hv, hl, hh, hread⟩ := takes_of_glyphsFrom hlow hhigh h
  rw [if_pos rfl, List.cons.injEq, Option.some.injEq] at hread
  exact ⟨v, rest, hbytes, hv, hl, hh, hread.1.symm, hread.2⟩

theorem two_of_glyphsFrom (hlow : 0x80 ≤ low.toNat) (hhigh : high.toNat ≤ 0xBF)
    (h : glyphsFrom (some ⟨2, low, high, bits⟩) bytes = some c :: gs) :
    ∃ u v rest, bytes = UInt8.ofNat (u + 0x80) :: UInt8.ofNat (v + 0x80) :: rest ∧ u < 64 ∧
      v < 64 ∧ low.toNat ≤ u + 0x80 ∧ u + 0x80 ≤ high.toNat ∧
      c = Char.ofNat ((bits * 64 + u) * 64 + v) ∧ glyphs rest = gs := by
  obtain ⟨u, more, hbytes, hu, hl, hh, hread⟩ := takes_of_glyphsFrom hlow hhigh h
  rw [if_neg (by decide)] at hread
  obtain ⟨v, rest, hmore, hv, _, _, hc, hgs⟩ := last_of_glyphsFrom (by decide) (by decide) hread
  exact ⟨u, v, rest, by rw [hbytes, hmore], hu, hv, hl, hh, hc, hgs⟩

theorem three_of_glyphsFrom (hlow : 0x80 ≤ low.toNat) (hhigh : high.toNat ≤ 0xBF)
    (h : glyphsFrom (some ⟨3, low, high, bits⟩) bytes = some c :: gs) :
    ∃ t u v rest, bytes = UInt8.ofNat (t + 0x80) :: UInt8.ofNat (u + 0x80) ::
        UInt8.ofNat (v + 0x80) :: rest ∧ t < 64 ∧ u < 64 ∧ v < 64 ∧ low.toNat ≤ t + 0x80 ∧
      t + 0x80 ≤ high.toNat ∧
      c = Char.ofNat (((bits * 64 + t) * 64 + u) * 64 + v) ∧ glyphs rest = gs := by
  obtain ⟨t, more, hbytes, ht, hl, hh, hread⟩ := takes_of_glyphsFrom hlow hhigh h
  rw [if_neg (by decide)] at hread
  obtain ⟨u, v, rest, hmore, hu, hv, _, _, hc, hgs⟩ :=
    two_of_glyphsFrom (by decide) (by decide) hread
  exact ⟨t, u, v, rest, by rw [hbytes, hmore], ht, hu, hv, hl, hh, hc, hgs⟩

end

section

variable {a : Nat} {b low high : UInt8} {bytes : List UInt8} {c : Char} {gs : List (Option Char)}

/-- Three octets of which the first holds `a`: the range of the second shuts out what would
have been written with fewer, and the surrogates. -/
theorem encode_of_lead_three (hb : b = UInt8.ofNat (a + 0xE0)) (ha : a < 16)
    (hfirst : first b = .lead ⟨2, low, high, a⟩)
    (hlow : 0x80 ≤ low.toNat ∧ (a = 0 → 0xA0 ≤ low.toNat))
    (hhigh : high.toNat ≤ 0xBF ∧ (a = 13 → high.toNat ≤ 0x9F))
    (h : glyphs (b :: bytes) = some c :: gs) :
    ∃ rest, b :: bytes = String.utf8EncodeChar c ++ rest ∧ glyphs rest = gs := by
  rw [glyphs_lead hfirst] at h
  obtain ⟨u, v, rest, hbytes, hu, hv, hl, hh, hc, hgs⟩ := two_of_glyphsFrom hlow.1 hhigh.1 h
  refine ⟨rest, ?_, hgs⟩
  rw [hc, encodeChar_three ha hu hv (by omega) (by omega), hbytes, hb]
  rfl

/-- Four octets: the range of the second also shuts out what is no character yet. -/
theorem encode_of_lead_four (hb : b = UInt8.ofNat (a + 0xF0)) (ha : a ≤ 4)
    (hfirst : first b = .lead ⟨3, low, high, a⟩)
    (hlow : 0x80 ≤ low.toNat ∧ (a = 0 → 0x90 ≤ low.toNat))
    (hhigh : high.toNat ≤ 0xBF ∧ (a = 4 → high.toNat ≤ 0x8F))
    (h : glyphs (b :: bytes) = some c :: gs) :
    ∃ rest, b :: bytes = String.utf8EncodeChar c ++ rest ∧ glyphs rest = gs := by
  rw [glyphs_lead hfirst] at h
  obtain ⟨t, u, v, rest, hbytes, ht, hu, hv, hl, hh, hc, hgs⟩ :=
    three_of_glyphsFrom hlow.1 hhigh.1 h
  refine ⟨rest, ?_, hgs⟩
  rw [hc, encodeChar_four ha ht hu hv (by omega) (by omega), hbytes, hb]
  rfl

/-- Where a character is read first, its octets stand first. -/
theorem encode_of_glyphs (h : glyphs bytes = some c :: gs) :
    ∃ rest, bytes = String.utf8EncodeChar c ++ rest ∧ glyphs rest = gs := by
  cases bytes with
  | nil => cases h
  | cons b more =>
    obtain ⟨n, hn⟩ : ∃ n, n = b.toNat := ⟨_, rfl⟩
    have hb : b = UInt8.ofNat n := by rw [hn, UInt8.ofNat_toNat]
    have hfirst := first_ofNat n (hn ▸ b.toNat_lt)
    rw [← hb] at hfirst
    -- One case for each range of first octets.
    split at hfirst
    · have hread : glyphs (b :: more) = some (Char.ofNat n) :: glyphs more := by
        simp [glyphs, glyphsFrom, step, start, hfirst]
      rw [hread, List.cons.injEq, Option.some.injEq] at h
      exact ⟨more, by rw [← h.1, encodeChar_one ‹n < 0x80›, hb, List.singleton_append], h.2⟩
    split at hfirst
    · simp [glyphs, glyphsFrom, step, start, hfirst] at h
    split at hfirst
    · rw [glyphs_lead hfirst] at h
      obtain ⟨v, rest, hmore, hv, _, _, hc, hgs⟩ := last_of_glyphsFrom (by decide) (by decide) h
      refine ⟨rest, ?_, hgs⟩
      rw [hc, encodeChar_two (by omega) (by omega) hv, hmore, hb, Nat.sub_add_cancel (by omega)]
      rfl
    split at hfirst
    · exact encode_of_lead_three (by rw [hb, ‹n = 0xE0›]) (by decide) hfirst (by decide) (by decide) h
    split at hfirst
    · exact encode_of_lead_three (by rw [hb, ‹n = 0xED›]) (by decide) hfirst (by decide) (by decide) h
    split at hfirst
    · have hlow : n - 0xE0 = 0 → 0xA0 ≤ (0x80 : UInt8).toNat := by omega
      have hhigh : n - 0xE0 = 13 → (0xBF : UInt8).toNat ≤ 0x9F := by omega
      exact encode_of_lead_three (by rw [hb, Nat.sub_add_cancel (by omega)]) (by omega) hfirst
        ⟨by decide, hlow⟩ ⟨by decide, hhigh⟩ h
    split at hfirst
    · exact encode_of_lead_four (by rw [hb, ‹n = 0xF0›]) (by decide) hfirst (by decide) (by decide) h
    split at hfirst
    · have hlow : n - 0xF0 = 0 → 0x90 ≤ (0x80 : UInt8).toNat := by omega
      have hhigh : n - 0xF0 = 4 → (0xBF : UInt8).toNat ≤ 0x8F := by omega
      exact encode_of_lead_four (by rw [hb, Nat.sub_add_cancel (by omega)]) (by omega) hfirst
        ⟨by decide, hlow⟩ ⟨by decide, hhigh⟩ h
    split at hfirst
    · exact encode_of_lead_four (by rw [hb, ‹n = 0xF4›]) (by decide) hfirst (by decide) (by decide) h
    · simp [glyphs, glyphsFrom, step, start, hfirst] at h

end

/-! ## Where the damage begins -/

/-- `s` is what `bytes` are up to their first ill-formed part: they begin with its octets, and
with those of no longer text. -/
structure IsSound (s : String) (bytes : List UInt8) : Prop where
  begins : octets s <+: bytes
  longest : ∀ t, octets t <+: bytes → octets t <+: octets s

theorem octets_append (s t : String) : octets (s ++ t) = octets s ++ octets t := by
  rw [octets_eq, octets_eq, octets_eq, String.toList_append, List.flatMap_append]

/-- The characters that are read first are those of a text whose octets stand first. -/
theorem octets_of_glyphs {cs : List Char} {bytes : List UInt8} {gs : List (Option Char)}
    (h : glyphs bytes = cs.map some ++ gs) :
    ∃ rest, bytes = octets (String.ofList cs) ++ rest ∧ glyphs rest = gs := by
  rw [octets_eq, String.toList_ofList]
  induction cs generalizing bytes with
  | nil => exact ⟨bytes, rfl, h⟩
  | cons c cs ih =>
    rw [List.map_cons, List.cons_append] at h
    obtain ⟨more, hbytes, hmore⟩ := encode_of_glyphs h
    obtain ⟨rest, hrest, hgs⟩ := ih hmore
    exact ⟨rest, by rw [hbytes, hrest, List.flatMap_cons, List.append_assoc], hgs⟩

theorem glyphsFrom_ne_nil (p : Pending) (bytes : List UInt8) : glyphsFrom (some p) bytes ≠ [] := by
  induction bytes generalizing p with
  | nil => simp [glyphsFrom]
  | cons b bytes ih =>
    rw [glyphsFrom, step]
    split
    · split
      · simp
      · exact ih _
    · simp

theorem glyphs_ne_nil (b : UInt8) (bytes : List UInt8) : glyphs (b :: bytes) ≠ [] := by
  rw [glyphs, glyphsFrom, step, start]
  cases first b with
  | ascii c => simp
  | lead p => exact glyphsFrom_ne_nil p bytes
  | refused => simp

/-- Either all was read as characters, or they end at an ill-formed part. -/
theorem chars_cases (gs : List (Option Char)) :
    (∃ cs : List Char, gs = cs.map some) ∨ ∃ (cs : List Char) (more : List (Option Char)),
      gs = cs.map some ++ none :: more := by
  induction gs with
  | nil => exact .inl ⟨[], rfl⟩
  | cons g gs ih =>
    cases g with
    | none => exact .inr ⟨[], gs, rfl⟩
    | some c =>
      rcases ih with ⟨cs, rfl⟩ | ⟨cs, more, rfl⟩
      · exact .inl ⟨c :: cs, rfl⟩
      · exact .inr ⟨c :: cs, more, rfl⟩

/-- Octets are well-formed exactly if they are those of a text. -/
theorem isWellFormed_iff {bytes : List UInt8} : isWellFormed bytes = true ↔ ∃ s, octets s = bytes := by
  constructor
  · intro h
    rcases chars_cases (glyphs bytes) with ⟨cs, hcs⟩ | ⟨cs, more, hcs⟩
    · obtain ⟨rest, hbytes, hrest⟩ := octets_of_glyphs (hcs.trans (List.append_nil _).symm)
      cases rest with
      | nil => exact ⟨String.ofList cs, by rw [hbytes, List.append_nil]⟩
      | cons b rest => exact absurd hrest (glyphs_ne_nil b rest)
    · rw [isWellFormed, hcs] at h
      simp at h
  · rintro ⟨s, rfl⟩
    exact isWellFormed_encode s

/-- Characters that are read first come before the ill-formed part. -/
theorem prefix_of_chars {as cs : List Char} {x y : List (Option Char)}
    (h : as.map some ++ x = cs.map some ++ none :: y) : as <+: cs := by
  induction as generalizing cs with
  | nil => exact List.nil_prefix
  | cons a as ih =>
    cases cs with
    | nil => cases h
    | cons c cs =>
      simp only [List.map_cons, List.cons_append, List.cons.injEq, Option.some.injEq] at h
      rw [h.1]
      exact (List.prefix_cons_inj c).2 (ih h.2)

theorem toUTF8_ne {bytes : ByteArray} (h : isWellFormed bytes.data.toList = false) (s : String) :
    s.toUTF8 ≠ bytes := by
  intro hs
  rw [← hs] at h
  exact absurd (isWellFormed_encode s) (Bool.eq_false_iff.1 h)

/-- The text that is read in front of an ill-formed part stands there, and no longer one. -/
theorem isSound_of_glyphs {s : String} {bytes : List UInt8} {more : List (Option Char)}
    (h : glyphs bytes = s.toList.map some ++ none :: more) : IsSound s bytes := by
  obtain ⟨rest, hbytes, -⟩ := octets_of_glyphs h
  rw [String.ofList_toList] at hbytes
  refine ⟨⟨rest, hbytes.symm⟩, ?_⟩
  rintro t ⟨behind, ht⟩
  have hread : t.toList.map some ++ glyphs behind = s.toList.map some ++ none :: more := by
    rw [← glyphs_octets_append, ht, h]
  obtain ⟨tail, htail⟩ := prefix_of_chars hread
  rw [octets_eq, octets_eq, ← htail, List.flatMap_append]
  exact List.prefix_append _ _

/-- Octets that are not well-formed are read as such a text up to there. -/
theorem exists_sound {bytes : List UInt8} (h : isWellFormed bytes = false) :
    ∃ s more, IsSound s bytes ∧ glyphs bytes = s.toList.map some ++ none :: more := by
  rcases chars_cases (glyphs bytes) with ⟨cs, hcs⟩ | ⟨cs, more, hcs⟩
  · rw [isWellFormed, hcs] at h
    simp at h
  · rw [← String.toList_ofList (l := cs)] at hcs
    exact ⟨String.ofList cs, more, isSound_of_glyphs hcs, hcs⟩

/-- A byte order mark is a character, so taking it away leaves well-formed only what was. -/
theorem not_isWellFormed_dropMark {bytes : List UInt8} (h : ∀ s, octets s ≠ bytes) :
    isWellFormed (dropMark bytes) = false := by
  rw [← Bool.not_eq_true, isWellFormed_iff]
  rintro ⟨s, hs⟩
  unfold dropMark at hs
  split at hs
  · rename_i hmark
    obtain ⟨rest, rfl⟩ := List.isPrefixOf_iff_prefix.1 hmark
    rw [List.drop_left] at hs
    have hoctets : octets "\uFEFF" = byteOrderMark := by decide +kernel
    exact h ("\uFEFF" ++ s) (by rw [octets_append, hoctets, hs])
  · exact h s hs

end Datapack.Text.Utf8
