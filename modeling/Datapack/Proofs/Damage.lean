import Datapack.Build
import Datapack.Proofs.Decoding
import Mathlib.Data.List.TakeWhile

/-
  Datapack.Proofs.Damage — which line of a script is said to be damaged.

  The line is looked for in the text as it was read: it is the first that has a U+FFFD.
  Lines are counted by the line feeds in front of it (`findIdx?_lines`), and an ill-formed
  part is read as one, so the search never goes further than the first ill-formed part. What
  it cannot tell is a U+FFFD that was there: the line is right exactly if, in the text in
  front of the first ill-formed part, no line ends behind such a character
  (`decodeSource_line`).

  A script that has one on a line of its own, and damage on a later line, gets its diagnostic
  for the former (`decodeSource_mistakes_line`).
-/

namespace Datapack

namespace Text

/-! ## The first line with a character -/

variable {r : Char}

theorem findIdx?_stretches (hr : r ≠ '\n') {cs : List Char} (h : r ∈ cs) :
    (stretches '\n' cs).findIdx? (·.contains r) =
      some ((cs.takeWhile (· ≠ r)).count '\n') := by
  induction cs with
  | nil => cases h
  | cons c cs ih =>
    by_cases hend : c = '\n'
    · have hmem : r ∈ cs := (List.mem_cons.1 h).resolve_left fun he => hr (he.trans hend)
      have hcut : stretches '\n' (c :: cs) = [] :: stretches '\n' cs := by
        rw [stretches, if_pos hend]
      have hbefore : (c :: cs).takeWhile (· ≠ r) = '\n' :: cs.takeWhile (· ≠ r) := by
        rw [hend]
        exact List.takeWhile_cons_of_pos (decide_eq_true hr.symm)
      rw [hcut, List.findIdx?_cons, hbefore, List.count_cons_self, ih hmem]
      rfl
    · obtain ⟨s, ss, hs⟩ := List.exists_cons_of_ne_nil (stretches_ne_nil '\n' cs)
      have hcut : stretches '\n' (c :: cs) = (c :: s) :: ss := by
        rw [stretches, if_neg hend, hs]
      rw [hcut, List.findIdx?_cons]
      by_cases hc : c = r
      · subst hc
        simp
      · have hmem : r ∈ cs := (List.mem_cons.1 h).resolve_left (Ne.symm hc)
        have hbefore : (c :: cs).takeWhile (· ≠ r) = c :: cs.takeWhile (· ≠ r) :=
          List.takeWhile_cons_of_pos (decide_eq_true hc)
        have hfirst : (c :: s).contains r = s.contains r := by
          simp [Ne.symm hc]
        rw [hbefore, List.count_cons_of_ne hend, ← ih hmem, hs, List.findIdx?_cons, hfirst]

theorem contains_dropCarriageReturn (hr : r ≠ '\r') (cs : List Char) :
    (dropCarriageReturn cs).contains r = cs.contains r := by
  unfold dropCarriageReturn
  split
  · rename_i hlast
    obtain ⟨front, rfl⟩ := List.getLast?_eq_some_iff.1 hlast
    rw [List.dropLast_concat]
    simp [hr]
  · rfl

/-- A line end hides no other character, and the last line is left out only if it has none. -/
theorem findIdx?_lines (hr : r ≠ '\n') (hr' : r ≠ '\r') {text : String} (h : r ∈ text.toList) :
    (lines text).findIdx? (·.toList.contains r) =
      some ((text.toList.takeWhile (· ≠ r)).count '\n') := by
  rw [← findIdx?_stretches hr h]
  obtain ⟨front, last, hcut⟩ := (List.eq_nil_or_concat (stretches '\n' text.toList)).resolve_left
    (stretches_ne_nil '\n' text.toList)
  have hread : ((·.toList.contains r) ∘ String.ofList : List Char → Bool) = (·.contains r) := by
    funext cs
    rw [Function.comp_apply, String.toList_ofList]
  have hended : ((·.contains r) ∘ dropCarriageReturn : List Char → Bool) = (·.contains r) :=
    funext (contains_dropCarriageReturn hr')
  have hlines : lines text =
      (front.map dropCarriageReturn ++ [last].filter (· ≠ [])).map String.ofList := by
    unfold lines
    simp only [hcut, List.concat_eq_append, List.dropLast_concat, List.getLast?_concat,
      Option.toList_some]
  rw [hlines, hcut, List.concat_eq_append, List.findIdx?_map, hread, List.findIdx?_append,
    List.findIdx?_append, List.findIdx?_map, hended, List.length_map]
  cases last with
  | nil => rfl
  | cons c cs => rfl

end Text

namespace Text.Utf8

/-! ## Line feeds among the octets -/

theorem count_octet {n : Nat} (h : n < 256) (bytes : List UInt8) :
    (UInt8.ofNat n :: bytes).count 0x0A = bytes.count 0x0A + if n = 10 then 1 else 0 := by
  have hn : (UInt8.ofNat n == 0x0A) = decide (n = 10) := by
    rw [Bool.eq_iff_iff, beq_iff_eq, decide_eq_true_eq, ← UInt8.toNat_inj, toNat_octet h]
    rfl
  rw [List.count_cons, hn]
  simp

theorem count_encodeChar (c : Char) :
    (String.utf8EncodeChar c).count 0x0A = if c = '\n' then 1 else 0 := by
  have hc : c = '\n' ↔ c.val.toNat = 10 := by
    rw [Char.ext_iff, ← UInt32.toNat_inj]
    rfl
  rw [if_congr hc rfl rfl]
  unfold String.utf8EncodeChar
  generalize c.val.toNat = v
  simp only
  -- The octets of a longer code are none of them below 80.
  split
  · rw [count_octet (by omega), List.count_nil, Nat.zero_add]
  rw [if_neg (show v ≠ 10 by omega)]
  split
  · rw [count_octet (by omega), count_octet (by omega), List.count_nil, if_neg (by omega),
      if_neg (by omega)]
  split
  · rw [count_octet (by omega), count_octet (by omega), count_octet (by omega), List.count_nil,
      if_neg (by omega), if_neg (by omega), if_neg (by omega)]
  · rw [count_octet (by omega), count_octet (by omega), count_octet (by omega),
      count_octet (by omega), List.count_nil, if_neg (by omega), if_neg (by omega),
      if_neg (by omega), if_neg (by omega)]

/-- No octet of another character is that of a line feed. -/
theorem count_octets (s : String) : (octets s).count 0x0A = s.toList.count '\n' := by
  rw [octets_eq]
  induction s.toList with
  | nil => rfl
  | cons c cs ih =>
    rw [List.flatMap_cons, List.count_append, count_encodeChar, ih, List.count_cons, Nat.add_comm]
    simp

/-- Ill-formed octets are read as the text in front of the first ill-formed part, and a
replacement behind it. -/
theorem readLossy_of_sound {s : String} {bytes : List UInt8} {more : List (Option Char)}
    (h : glyphs bytes = s.toList.map some ++ none :: more) :
    (readLossy bytes).toList = s.toList ++ replacement :: more.map (·.getD replacement) := by
  have hread : ((·.getD replacement) ∘ some : Char → Char) = id := rfl
  rw [readLossy, String.toList_ofList, h, List.map_append, List.map_map, hread, List.map_id]
  rfl

end Text.Utf8

/-! ## The line that is reported -/

open Text.Utf8 (IsSound dropMark octets replacement)

theorem takeWhile_append_self {r : Char} (before after : List Char) :
    (before ++ r :: after).takeWhile (· ≠ r) = before.takeWhile (· ≠ r) := by
  rw [List.takeWhile_append]
  split
  · rw [List.takeWhile_cons_of_neg (by simp), List.append_nil]
    exact (List.IsPrefix.eq_of_length (List.takeWhile_prefix _) ‹_›).symm
  · rfl

/-- The line that has the first replacement or the first character that looks like one. -/
theorem line_of_sound {s : String} {bytes : ByteArray} {more : List (Option Char)}
    (h : Text.Utf8.glyphs (dropMark bytes.data.toList) = s.toList.map some ++ none :: more) :
    (decodeSource bytes).2 = some (1 + (s.toList.takeWhile (· ≠ replacement)).count '\n') := by
  have hill : Text.Utf8.isWellFormed (dropMark bytes.data.toList) = false := by
    simp [Text.Utf8.isWellFormed, h]
  have hread := Text.Utf8.readLossy_of_sound h
  have hmem : replacement ∈ (Text.Utf8.readLossy (dropMark bytes.data.toList)).toList := by
    rw [hread]
    simp
  have hfind := Text.findIdx?_lines (by decide) (by decide) hmem
  rw [hread, takeWhile_append_self] at hfind
  have hcases : decodeSource bytes = if Text.Utf8.isWellFormed (dropMark bytes.data.toList) then _ else
      (Text.Utf8.readLossy (dropMark bytes.data.toList),
        ((Text.lines (Text.Utf8.readLossy (dropMark bytes.data.toList))).findIdx?
          (·.toList.contains replacement)).map (· + 1)) := rfl
  rw [hcases, if_neg (Bool.eq_false_iff.1 hill), hfind, Nat.add_comm]
  rfl

/-- Whatever the damage, the result of the build begins its diagnostics with it. -/
theorem Job.head?_diagnostics {job : Job} {d : Disk} {bytes : ByteArray} {built : Built} {line : Nat}
    (hread : d.read job.source = .ok bytes) (hline : (decodeSource bytes).2 = some line)
    (h : (job.build d).result = .ok built) :
    built.diagnostics.head? =
      some ⟨line, .skipped, "source is not valid UTF-8, invalid bytes were replaced"⟩ := by
  unfold Job.build at h
  rw [hread] at h
  simp only at h
  split at h
  · cases h
  obtain ⟨_, rfl⟩ := Job.built_of_executeIn h
  rw [hline]
  rfl

/-- Octets that are those of no text get the line in which, counting by line feeds, a U+FFFD
first stands, be it one that was there or the replacement of the first ill-formed part. So it
is the line of that part, unless a line ends between the two. The build's first diagnostic
has that line. -/
theorem decodeSource_line {bytes : ByteArray} (h : ∀ s : String, s.toUTF8 ≠ bytes) :
    ∃ (s : String) (line : Nat), IsSound s (dropMark bytes.data.toList) ∧
      (decodeSource bytes).2 = some line ∧
      line = 1 + (s.toList.takeWhile (· ≠ replacement)).count '\n' ∧
      (line = 1 + (octets s).count 0x0A ↔ '\n' ∉ s.toList.dropWhile (· ≠ replacement)) ∧
      ∀ (job : Job) (d : Disk) (built : Built), d.read job.source = .ok bytes →
        (job.build d).result = .ok built →
        built.diagnostics.head? =
          some ⟨line, .skipped, "source is not valid UTF-8, invalid bytes were replaced"⟩ := by
  have hnone : ∀ s, octets s ≠ bytes.data.toList := by
    intro s hs
    refine h s ?_
    rw [ByteArray.ext_iff, ← Array.toList_inj]
    exact hs
  obtain ⟨s, more, hsound, hread⟩ := Text.Utf8.exists_sound (Text.Utf8.not_isWellFormed_dropMark hnone)
  have hline := line_of_sound hread
  refine ⟨s, _, hsound, hline, rfl, ?_, fun job d built hsource hbuilt =>
    Job.head?_diagnostics hsource hline hbuilt⟩
  have hsplit : s.toList.count '\n' = (s.toList.takeWhile (· ≠ replacement)).count '\n' +
      (s.toList.dropWhile (· ≠ replacement)).count '\n' := by
    rw [← List.count_append, List.takeWhile_append_dropWhile]
  rw [Text.Utf8.count_octets, hsplit, ← List.count_eq_zero]
  omega

/-- A Latin-1 letter on the second line is found there. -/
theorem decodeSource_line_latin :
    let bytes : ByteArray := ⟨#[0x61, 0x0D, 0x0A, 0x63, 0xE9]⟩
    let job : Job := ⟨⟨"/s"⟩, none, false, none⟩
    let d : Disk := ⟨FileTree.empty.add [] "s" (.file bytes), ⟨[], 0⟩⟩
    (∀ s : String, s.toUTF8 ≠ bytes) ∧ (decodeSource bytes).2 = some 2 ∧
      ∃ built, (job.build d).result = .ok built ∧ built.diagnostics.head? =
        some ⟨2, .skipped, "source is not valid UTF-8, invalid bytes were replaced"⟩ := by
  intro bytes job d
  have hill : ∀ s : String, s.toUTF8 ≠ bytes := Text.Utf8.toUTF8_ne (by decide +kernel)
  have htwo : (decodeSource bytes).2 = some 2 := by decide +kernel
  have hread : d.read job.source = .ok bytes := by decide +kernel
  have hbuilds : (job.build d).result.toOption.isSome = true := by decide +kernel
  obtain ⟨s, line, -, hline, -, -, hreports⟩ := decodeSource_line hill
  rw [htwo, Option.some.injEq] at hline
  cases hresult : (job.build d).result with
  | error e =>
    rw [hresult] at hbuilds
    cases hbuilds
  | ok built =>
    have hfirst := hreports job d built hread hresult
    rw [← hline] at hfirst
    exact ⟨hill, htwo, built, rfl, hfirst⟩

/-- A U+FFFD that was there is taken for the replacement: the first ill-formed part is on the
second line, and the first is reported. -/
theorem decodeSource_mistakes_line :
    let bytes : ByteArray := ⟨#[0xEF, 0xBF, 0xBD, 0x0A, 0xFF]⟩
    (∀ s : String, s.toUTF8 ≠ bytes) ∧ IsSound "\uFFFD\n" (dropMark bytes.data.toList) ∧
      1 + (octets "\uFFFD\n").count 0x0A = 2 ∧ (decodeSource bytes).2 = some 1 := by
  intro bytes
  have hread : Text.Utf8.glyphs (dropMark bytes.data.toList) =
      "\uFFFD\n".toList.map some ++ [none] := by
    decide +kernel
  exact ⟨Text.Utf8.toUTF8_ne (by decide +kernel), Text.Utf8.isSound_of_glyphs hread,
    by decide +kernel, by decide +kernel⟩

end Datapack
