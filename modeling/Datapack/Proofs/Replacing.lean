import Datapack.Proofs.Damage

/-
  Datapack.Proofs.Replacing — what is replaced in octets that are no text.

  Octets fall into the codes of characters and ill-formed parts, in one way only (`Reads`).
  A part is ill-formed where no character stands: it is the longest one there with which a
  character may begin, or, if none does, a single octet (`IsDamage`). This is told without
  the states of the reader.

  What the reader awaits at an octet tells with which octets behind it a character may go on
  (`Awaits`): an octet that is taken can be completed (`completes`), one that is not breaks
  off any character. So a part that is replaced is an ill-formed one, and reading goes on
  right behind it (`damage_of_glyphs`), and the reader gives just what octets fall into
  (`reads_iff`).

  An octet below 80 is no part of a longer code, nor of an ill-formed part, so the text has
  the same of them, in the same order (`ascii_of_reads`). Put together for the octets of a
  script, this is `decodeSource_reads`.
-/

namespace Datapack

namespace Text.Utf8

def BeginsChar (part : List UInt8) : Prop := ∃ c : Char, part <+: String.utf8EncodeChar c

/-- In front of `rest` the octets `part` are ill-formed, and are so together. -/
structure IsDamage (part rest : List UInt8) : Prop where
  noChar : ∀ c : Char, ¬ String.utf8EncodeChar c <+: part ++ rest
  begins : part.length = 1 ∨ part ≠ [] ∧ BeginsChar part
  longest : ∀ more, more <+: rest → more ≠ [] → ¬ BeginsChar (part ++ more)

/-- The octets are those of characters and, for each `none`, an ill-formed part. -/
inductive Reads : List UInt8 → List (Option Char) → Prop
  | nil : Reads [] []
  | char (c : Char) {rest : List UInt8} {gs : List (Option Char)} (h : Reads rest gs) :
      Reads (String.utf8EncodeChar c ++ rest) (some c :: gs)
  | damage {part rest : List UInt8} {gs : List (Option Char)} (hpart : IsDamage part rest)
      (h : Reads rest gs) : Reads (part ++ rest) (none :: gs)

variable {part rest bytes : List UInt8} {gs : List (Option Char)} {p : Pending} {b : UInt8}

/-! ## What may come next -/

theorem BeginsChar.shorter {x y : List UInt8} (h : BeginsChar y) (hxy : x <+: y) : BeginsChar x := by
  obtain ⟨c, hc⟩ := h
  exact ⟨c, hxy.trans hc⟩

/-- The octets of a character are read as that character alone. -/
theorem glyphs_char (c : Char) : glyphs (String.utf8EncodeChar c) = [some c] := by
  have hread := glyphs_encodeChar c []
  rw [List.append_nil] at hread
  exact hread

/-- Octets that are read as one character are its octets. -/
theorem encode_of_singleton {c : Char} (h : glyphs bytes = [some c]) :
    bytes = String.utf8EncodeChar c := by
  obtain ⟨rest, hbytes, hrest⟩ := encode_of_glyphs h
  cases rest with
  | nil => rw [hbytes, List.append_nil]
  | cons b rest => exact absurd hrest (glyphs_ne_nil b rest)

/-- Where an ill-formed part is read no character stands. -/
theorem noChar_of_glyphs (h : glyphs bytes = none :: gs) (c : Char) :
    ¬ String.utf8EncodeChar c <+: bytes := by
  intro hc
  obtain ⟨rest, hrest⟩ := hc
  rw [← hrest, glyphs_encodeChar] at h
  cases h

/-- An octet that is taken can be followed by others that complete the character. -/
theorem completes (hneed : p.need ≠ 0) (ht : p.takes b = true) :
    ∃ fill c, glyphsFrom (some p) (b :: fill) = [some c] := by
  obtain ⟨n, hn⟩ := Nat.exists_eq_succ_of_ne_zero hneed
  induction n generalizing p b with
  | zero =>
    refine ⟨[], Char.ofNat (p.push b), ?_⟩
    rw [glyphsFrom, step, if_pos ht, if_pos hn]
    rfl
  | succ n ih =>
    have hmore : p.need ≠ 1 := by omega
    have hleft : p.need - 1 = n + 1 := by omega
    obtain ⟨fill, c, hread⟩ := @ih ⟨p.need - 1, 0x80, 0xBF, p.push b⟩ 0x80
      (by show p.need - 1 ≠ 0; omega) rfl hleft
    refine ⟨0x80 :: fill, c, ?_⟩
    rw [glyphsFrom, step, if_pos ht, if_neg hmore]
    exact hread

/-- The octets `part` have been read as the beginning of a character, and `p` is awaited. -/
structure Awaits (part : List UInt8) (p : Pending) : Prop where
  read : ∀ more, glyphs (part ++ more) = glyphsFrom (some p) more
  need : p.need ≠ 0

namespace Awaits

theorem begins_of_takes (h : Awaits part p) (ht : p.takes b = true) : BeginsChar (part ++ [b]) := by
  obtain ⟨fill, c, hread⟩ := completes h.need ht
  rw [← h.read] at hread
  refine ⟨c, ?_⟩
  rw [← encode_of_singleton hread]
  exact ⟨fill, by rw [List.append_assoc, List.singleton_append]⟩

theorem not_begins (h : Awaits part p) (ht : p.takes b = false) : ¬ BeginsChar (part ++ [b]) := by
  intro hbegins
  obtain ⟨c, more, hc⟩ := hbegins
  have hread := glyphs_char c
  rw [← hc, List.append_assoc, List.singleton_append, h.read, glyphsFrom, step,
    if_neg (by simp [ht])] at hread
  cases hread

theorem take (h : Awaits part p) (ht : p.takes b = true) (hmore : p.need ≠ 1) :
    Awaits (part ++ [b]) ⟨p.need - 1, 0x80, 0xBF, p.push b⟩ := by
  constructor
  · intro more
    rw [List.append_assoc, List.singleton_append, h.read, glyphsFrom, step, if_pos ht, if_neg hmore]
    rfl
  · have hneed := h.need
    show p.need - 1 ≠ 0
    omega

end Awaits

/-- A first octet that announces others leaves one open that is taken. -/
theorem lead_takes (h : first b = .lead p) : p.need ≠ 0 ∧ p.takes p.low = true := by
  unfold first at h
  repeat' split at h
  all_goals cases h
  all_goals exact ⟨by simp, rfl⟩

theorem awaits_lead (h : first b = .lead p) : Awaits [b] p ∧ BeginsChar [b] := by
  obtain ⟨hneed, hlow⟩ := lead_takes h
  have hawaits : Awaits [b] p := ⟨fun more => glyphs_lead h more, hneed⟩
  exact ⟨hawaits, (hawaits.begins_of_takes hlow).shorter (List.prefix_append _ _)⟩

/-! ## Ill-formed parts -/

/-- A part with which a character may begin, but with no octet more, is an ill-formed one. -/
theorem isDamage_of_begins (hchar : ∀ c : Char, ¬ String.utf8EncodeChar c <+: part ++ rest)
    (hne : part ≠ []) (hbegins : BeginsChar part)
    (hstop : ∀ b more, rest = b :: more → ¬ BeginsChar (part ++ [b])) : IsDamage part rest := by
  refine ⟨hchar, .inr ⟨hne, hbegins⟩, ?_⟩
  intro more hmore hnil hlonger
  obtain ⟨b, tail, rfl⟩ := List.exists_cons_of_ne_nil hnil
  obtain ⟨behind, hrest⟩ := hmore
  apply hstop b (tail ++ behind) hrest.symm
  apply hlonger.shorter
  exact ⟨tail, by rw [List.append_assoc, List.singleton_append]⟩

/-- A character that was begun and does not come to its end has been broken off where it
could not go on. -/
theorem damage_of_awaits (h : Awaits part p) (hne : part ≠ []) (hbegins : BeginsChar part)
    (hread : glyphsFrom (some p) bytes = none :: gs) :
    ∃ more rest, bytes = more ++ rest ∧ IsDamage (part ++ more) rest ∧ glyphs rest = gs := by
  have hchar : ∀ c : Char, ¬ String.utf8EncodeChar c <+: part ++ bytes := by
    apply noChar_of_glyphs
    rw [h.read, hread]
  induction bytes generalizing part p with
  | nil =>
    have hgs : gs = [] := by
      rw [glyphsFrom] at hread
      cases hread
      rfl
    refine ⟨[], [], rfl, ?_, hgs.symm⟩
    rw [List.append_nil]
    exact isDamage_of_begins hchar hne hbegins fun b more hrest => by cases hrest
  | cons b bytes ih =>
    rw [glyphsFrom, step] at hread
    by_cases ht : p.takes b = true
    · rw [if_pos ht] at hread
      by_cases hlast : p.need = 1
      · rw [if_pos hlast] at hread
        cases hread
      · rw [if_neg hlast] at hread
        obtain ⟨more, rest, hbytes, hdamage, hgs⟩ :=
          ih (h.take ht hlast) (by simp) (h.begins_of_takes ht) hread
            (by rwa [List.append_assoc, List.singleton_append])
        refine ⟨b :: more, rest, by rw [hbytes, List.cons_append], ?_, hgs⟩
        rwa [List.append_assoc, List.singleton_append] at hdamage
    · rw [if_neg ht, List.cons_append, List.cons.injEq] at hread
      refine ⟨[], b :: bytes, rfl, ?_, hread.2⟩
      rw [List.append_nil]
      apply isDamage_of_begins hchar hne hbegins
      intro b' more hrest
      obtain ⟨rfl, -⟩ := List.cons.inj hrest
      exact h.not_begins (Bool.eq_false_iff.2 ht)

/-- What is replaced first is an ill-formed part, and reading goes on behind it. -/
theorem damage_of_glyphs (h : glyphs bytes = none :: gs) :
    ∃ part rest, bytes = part ++ rest ∧ IsDamage part rest ∧ glyphs rest = gs := by
  have hchar := noChar_of_glyphs h
  cases bytes with
  | nil => cases h
  | cons b bytes =>
    cases hfirst : first b with
    | ascii c => simp [glyphs, glyphsFrom, step, start, hfirst] at h
    | lead p =>
      obtain ⟨hawaits, hbegins⟩ := awaits_lead hfirst
      rw [glyphs_lead hfirst] at h
      obtain ⟨more, rest, hbytes, hdamage, hgs⟩ := damage_of_awaits hawaits (by simp) hbegins h
      exact ⟨[b] ++ more, rest, by rw [hbytes]; rfl, hdamage, hgs⟩
    | refused =>
      have hrefused : ∀ more, glyphs (b :: more) = none :: glyphs more := by
        intro more
        simp [glyphs, glyphsFrom, step, start, hfirst]
      refine ⟨[b], bytes, rfl, ⟨hchar, .inl rfl, ?_⟩, ?_⟩
      · intro more _ _ hbegins
        obtain ⟨c, tail, hc⟩ := hbegins
        have hread := glyphs_char c
        rw [← hc, List.singleton_append, List.cons_append, hrefused] at hread
        cases hread
      · rw [hrefused, List.cons.injEq] at h
        exact h.2

theorem IsDamage.ne_nil (h : IsDamage part rest) : part ≠ [] := by
  intro hnil
  subst hnil
  rcases h.begins with hone | ⟨hne, _⟩
  · cases hone
  · exact hne rfl

/-- A longer part would be one that a character begins with. -/
theorem IsDamage.prefix_of {part' rest' : List UInt8} (h : IsDamage part rest)
    (h' : IsDamage part' rest') (hsame : part ++ rest = part' ++ rest') : part' <+: part := by
  have hpart : part <+: part' ++ rest' := ⟨rest, hsame⟩
  rcases List.prefix_or_prefix_of_prefix hpart (List.prefix_append part' rest') with hle | hle
  · obtain ⟨more, rfl⟩ := hle
    by_cases hmore : more = []
    · subst hmore
      simp
    · rw [List.append_assoc] at hsame
      have hbehind : more <+: rest := ⟨rest', (List.append_cancel_left hsame).symm⟩
      have hlong : (part ++ more).length ≠ 1 := by
        have hone := List.length_pos_iff.2 h.ne_nil
        have htwo := List.length_pos_iff.2 hmore
        rw [List.length_append]
        omega
      have hbegins := (h'.begins.resolve_left hlong).2
      exact absurd hbegins (h.longest more hbehind hmore)
  · exact hle

/-- At one place one part is ill-formed. -/
theorem IsDamage.unique {part' rest' : List UInt8} (h : IsDamage part rest)
    (h' : IsDamage part' rest') (hsame : part ++ rest = part' ++ rest') :
    part = part' ∧ rest = rest' := by
  have hparts : part = part' := by
    apply (h'.prefix_of h hsame.symm).eq_of_length_le
    exact (h.prefix_of h' hsame).length_le
  subst hparts
  exact ⟨rfl, List.append_cancel_left hsame⟩

/-- Octets fall into characters and ill-formed parts in one way, and the reader gives it. -/
theorem reads_iff : Reads bytes gs ↔ gs = glyphs bytes := by
  constructor
  · intro h
    induction h with
    | nil => rfl
    | char c _ ih => rw [glyphs_encodeChar, ih]
    | @damage part rest gs hpart _ ih =>
      obtain ⟨b, more, hb⟩ := List.exists_cons_of_ne_nil hpart.ne_nil
      cases hread : glyphs (part ++ rest) with
      | nil =>
        rw [hb, List.cons_append] at hread
        exact absurd hread (glyphs_ne_nil b _)
      | cons g later =>
        cases g with
        | some c =>
          obtain ⟨behind, hbytes, _⟩ := encode_of_glyphs hread
          exact absurd ⟨behind, hbytes.symm⟩ (hpart.noChar c)
        | none =>
          obtain ⟨part', rest', hsame, hpart', hlater⟩ := damage_of_glyphs hread
          obtain ⟨_, hrest⟩ := hpart.unique hpart' hsame
          rw [ih, hrest, hlater]
  · intro h
    induction gs generalizing bytes with
    | nil =>
      cases bytes with
      | nil => exact .nil
      | cons b bytes => exact absurd h.symm (glyphs_ne_nil b bytes)
    | cons g gs ih =>
      cases g with
      | some c =>
        obtain ⟨rest, hbytes, hrest⟩ := encode_of_glyphs h.symm
        rw [hbytes]
        exact .char c (ih hrest.symm)
      | none =>
        obtain ⟨part, rest, hbytes, hpart, hrest⟩ := damage_of_glyphs h.symm
        rw [hbytes]
        exact .damage hpart (ih hrest.symm)

/-! ## ASCII -/

def isAscii (b : UInt8) : Bool := b < 0x80

def isAsciiChar (c : Char) : Bool := c.val < 0x80

def asciiChar (b : UInt8) : Char := Char.ofNat b.toNat

theorem isAscii_octet {n : Nat} (h : n < 256) : isAscii (UInt8.ofNat n) = decide (n < 128) := by
  unfold isAscii
  rw [decide_eq_decide, UInt8.lt_iff_toNat_lt, toNat_octet h]
  rfl

/-- A character either has one octet, which is below 80, or has none that is. -/
theorem ascii_cases (c : Char) :
    (isAsciiChar c = true ∧
      ∃ b, String.utf8EncodeChar c = [b] ∧ isAscii b = true ∧ asciiChar b = c) ∨
    isAsciiChar c = false ∧ ∀ b ∈ String.utf8EncodeChar c, isAscii b = false := by
  have hc : Char.ofNat c.val.toNat = c := Char.ofNat_toNat c
  have hvalid := c.valid
  unfold UInt32.isValidChar Nat.isValidChar at hvalid
  have hascii : isAsciiChar c = decide (c.val.toNat < 128) := by
    unfold isAsciiChar
    rw [decide_eq_decide, UInt32.lt_iff_toNat_lt]
    rfl
  have hhigh : ∀ n, 128 ≤ n → n < 256 → isAscii (UInt8.ofNat n) = false := by
    intro n hn hlt
    rw [isAscii_octet hlt, decide_eq_false (by omega)]
  rw [hascii]
  unfold String.utf8EncodeChar
  generalize c.val.toNat = v at hc hvalid
  simp only
  by_cases hone : v ≤ 127
  · left
    rw [if_pos hone]
    refine ⟨decide_eq_true (by omega), UInt8.ofNat v, rfl, ?_, ?_⟩
    · rw [isAscii_octet (by omega), decide_eq_true (by omega)]
    · rw [asciiChar, toNat_octet (by omega), hc]
  · right
    rw [if_neg hone]
    refine ⟨decide_eq_false (by omega), ?_⟩
    intro b hb
    split at hb
    · simp only [List.mem_cons, List.not_mem_nil, or_false] at hb
      rcases hb with h | h
      all_goals rw [h]; exact hhigh _ (by omega) (by omega)
    split at hb
    · simp only [List.mem_cons, List.not_mem_nil, or_false] at hb
      rcases hb with h | h | h
      all_goals rw [h]; exact hhigh _ (by omega) (by omega)
    · simp only [List.mem_cons, List.not_mem_nil, or_false] at hb
      rcases hb with h | h | h | h
      all_goals rw [h]; exact hhigh _ (by omega) (by omega)

theorem encode_asciiChar (h : isAscii b = true) : String.utf8EncodeChar (asciiChar b) = [b] := by
  have hread := glyphs_cons_ascii (by simpa [isAscii] using h) ([] : List UInt8)
  exact (encode_of_singleton hread).symm

/-- No octet below 80 is lost in an ill-formed part. -/
theorem IsDamage.notAscii (h : IsDamage part rest) : ∀ b ∈ part, isAscii b = false := by
  rcases h.begins with hone | ⟨hne, c, hc⟩
  · obtain ⟨b, rfl⟩ := List.length_eq_one_iff.1 hone
    intro b' hb'
    obtain rfl := List.mem_singleton.1 hb'
    rw [Bool.eq_false_iff]
    intro hascii
    apply h.noChar (asciiChar b')
    rw [encode_asciiChar hascii]
    exact List.prefix_append _ _
  · rcases ascii_cases c with ⟨_, b, hb, _⟩ | ⟨_, hall⟩
    · have hpart : part = [b] := by
        rw [hb] at hc
        apply hc.eq_of_length_le
        exact List.length_pos_iff.2 hne
      apply absurd (List.prefix_append part rest)
      have hnone := h.noChar c
      rwa [hb, ← hpart] at hnone
    · exact fun b hb => hall b (hc.subset hb)

/-- The characters of one octet come through, in their order, and no others are made up. -/
theorem ascii_of_reads (h : Reads bytes gs) :
    (gs.map (·.getD replacement)).filter isAsciiChar = (bytes.filter isAscii).map asciiChar := by
  induction h with
  | nil => rfl
  | @char c rest gs _ ih =>
    rw [List.filter_append, List.map_append, ← ih, List.map_cons, List.filter_cons, Option.getD_some]
    rcases ascii_cases c with ⟨hc, b, hb, hascii, hchar⟩ | ⟨hc, hall⟩
    · rw [if_pos hc, hb, List.filter_cons, if_pos hascii, List.filter_nil, List.map_singleton, hchar,
        List.singleton_append]
    · have hnone : (String.utf8EncodeChar c).filter isAscii = [] := by
        rw [List.filter_eq_nil_iff]
        intro b hb
        simp [hall b hb]
      rw [if_neg (by simp [hc]), hnone, List.map_nil, List.nil_append]
  | @damage part rest gs hpart _ ih =>
    have hnone : part.filter isAscii = [] := by
      rw [List.filter_eq_nil_iff]
      intro b hb
      simp [hpart.notAscii b hb]
    have hreplacement : isAsciiChar replacement = false := by decide
    rw [List.filter_append, hnone, List.nil_append, ← ih, List.map_cons, List.filter_cons,
      Option.getD_none, if_neg (by simp [hreplacement])]

/-! ## The byte order mark -/

/-- One byte order mark at most is taken away. -/
theorem dropMark_cases (bytes : List UInt8) :
    bytes = byteOrderMark ++ dropMark bytes ∨
      ¬ byteOrderMark <+: bytes ∧ dropMark bytes = bytes := by
  unfold dropMark
  by_cases hmark : byteOrderMark <+: bytes
  · left
    rw [if_pos (List.isPrefixOf_iff_prefix.2 hmark)]
    obtain ⟨rest, rfl⟩ := hmark
    rw [List.drop_left]
  · right
    refine ⟨hmark, ?_⟩
    rw [if_neg (fun h => hmark (List.isPrefixOf_iff_prefix.1 h))]

end Text.Utf8

open Text.Utf8

/-! ## Scripts -/

theorem decodeSource_text (bytes : ByteArray) :
    (decodeSource bytes).1 = readLossy (dropMark bytes.data.toList) := by
  unfold decodeSource
  dsimp only
  split
  · rfl
  · rfl

/-- The octets of a script, behind a byte order mark if there is one, are those of a text and
are read as it; or they are not, and each ill-formed part is replaced by a U+FFFD, and the
rest is what it was. Either way the ASCII characters are the octets below 80. -/
theorem decodeSource_reads (bytes : ByteArray) :
    ∃ body gs,
      (bytes.data.toList = byteOrderMark ++ body ∨
        ¬ byteOrderMark <+: bytes.data.toList ∧ body = bytes.data.toList) ∧
      (∀ gs', Reads body gs' ↔ gs' = gs) ∧
      (∀ s : String, octets s = body → decodeSource bytes = (s, none)) ∧
      ((∀ s : String, octets s ≠ body) → ∃ line,
        decodeSource bytes = (String.ofList (gs.map (·.getD replacement)), some line)) ∧
      (decodeSource bytes).1.toList.filter isAsciiChar = (body.filter isAscii).map asciiChar := by
  have hreads : Reads (dropMark bytes.data.toList) (glyphs (dropMark bytes.data.toList)) :=
    reads_iff.2 rfl
  refine ⟨_, _, dropMark_cases _, fun _ => reads_iff, ?_, ?_, ?_⟩
  · intro s hs
    have hwell : isWellFormed (dropMark bytes.data.toList) = true := isWellFormed_iff.2 ⟨s, hs⟩
    unfold decodeSource
    dsimp only
    rw [if_pos hwell, ← hs, readLossy_encode]
  · intro hnone
    have hill : isWellFormed (dropMark bytes.data.toList) = false := by
      rw [Bool.eq_false_iff]
      intro hwell
      obtain ⟨s, hs⟩ := isWellFormed_iff.1 hwell
      exact hnone s hs
    obtain ⟨s, more, _, hread⟩ := exists_sound hill
    exact ⟨_, Prod.ext (decodeSource_text bytes) (line_of_sound hread)⟩
  · rw [decodeSource_text, readLossy, String.toList_ofList]
    exact ascii_of_reads hreads

end Datapack
