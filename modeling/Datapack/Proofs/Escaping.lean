import Datapack.Build
import Datapack.Proofs.Encoding
import Datapack.Proofs.Names
import Datapack.Proofs.Quoting
import Mathlib.Data.List.TakeWhile

/-
  Datapack.Proofs.Escaping — texts written down in a script, and read as its lines.

  Any text of one line can be sent to a file: blanks are written as an empty line that is
  kept, and what begins like a directive or like such a line goes behind the mark for it
  (`escaped`). Read back, such a line is content, and but for blanks at its end it is the
  text (`classify_escaped`). A carriage return at the end of the text is taken for a part of
  the line end; it is one of those blanks, so that does no harm (`unended_escaped`).

  So the lines of a script that opens a file and has a line for each text are the opening
  and, in their order, what carries the texts (`carries_scriptFor`). Its octets are read as
  that script, since it does not begin with a byte order mark (`decodeSource_encode`).
-/

namespace Datapack

/-! ## Reading the octets of a text -/

theorem decodeSource_encode {s : String} (h : s.toList.head? ≠ some '\uFEFF') :
    decodeSource s.toUTF8 = (s, none) := by
  have hmark : Text.Utf8.dropMark (Text.Utf8.octets s) = Text.Utf8.octets s := by
    unfold Text.Utf8.dropMark
    rw [if_neg]
    rw [List.isPrefixOf_iff_prefix]
    rintro ⟨rest, hrest⟩
    have hread : Text.Utf8.glyphs (Text.Utf8.byteOrderMark ++ rest) =
        some '\uFEFF' :: Text.Utf8.glyphs rest := rfl
    rw [hrest, Text.Utf8.glyphs_encode] at hread
    cases hs : s.toList with
    | nil =>
      rw [hs] at hread
      cases hread
    | cons c cs =>
      rw [hs, List.map_cons, List.cons.injEq, Option.some.injEq] at hread
      rw [hs, hread.1] at h
      exact h rfl
  have hall : decodeSource s.toUTF8 =
      if Text.Utf8.isWellFormed (Text.Utf8.dropMark (Text.Utf8.octets s)) then
        (Text.Utf8.readLossy (Text.Utf8.dropMark (Text.Utf8.octets s)), none)
      else _ := rfl
  rw [hall, hmark, if_pos (Text.Utf8.isWellFormed_encode s), Text.Utf8.readLossy_encode]

/-! ## Lines -/

namespace Text

/-- A line without the carriage return of its line end. -/
def unended (line : String) : String := String.ofList (dropCarriageReturn line.toList)

theorem lines_append {line : String} (h : '\n' ∉ line.toList) (rest : String) :
    lines (line ++ "\n" ++ rest) = unended line :: lines rest := by
  have hcut : stretches '\n' (line ++ "\n" ++ rest).toList =
      line.toList :: stretches '\n' rest.toList := by
    have hnl : "\n".toList = ['\n'] := by decide
    rw [String.toList_append, String.toList_append, hnl, List.append_assoc,
      List.singleton_append, stretches_append, stretches_eq_singleton h]
    rfl
  obtain ⟨s, ss, hs⟩ := List.exists_cons_of_ne_nil (stretches_ne_nil '\n' rest.toList)
  unfold lines
  rw [hcut, hs]
  rfl

theorem lines_single {line : String} (h : '\n' ∉ line.toList) (hne : line ≠ "") :
    lines line = [line] := by
  have hsome : line.toList ≠ [] := fun he => hne (String.toList_inj.1 he)
  unfold lines
  rw [stretches_eq_singleton h]
  simp [hsome]

theorem getLast?_cases (cs : List Char) :
    (∃ front, cs = front ++ ['\r'] ∧ dropCarriageReturn cs = front) ∨
      cs.getLast? ≠ some '\r' ∧ dropCarriageReturn cs = cs := by
  unfold dropCarriageReturn
  split
  · rename_i h
    obtain ⟨front, rfl⟩ := List.getLast?_eq_some_iff.1 h
    exact .inl ⟨front, rfl, List.dropLast_concat⟩
  · exact .inr ⟨‹_›, rfl⟩

theorem all_unended (s : String) : (unended s).toList.all isBlank = s.toList.all isBlank := by
  rw [unended, String.toList_ofList]
  rcases getLast?_cases s.toList with ⟨front, hs, hd⟩ | ⟨_, hd⟩
  · have hblank : isBlank '\r' = true := by decide
    rw [hd, hs]
    simp [hblank]
  · rw [hd]

theorem head?_unended {s : String} (h : s.toList.all isBlank ≠ true) :
    (unended s).toList.head? = s.toList.head? := by
  rw [unended, String.toList_ofList]
  rcases getLast?_cases s.toList with ⟨front, hs, hd⟩ | ⟨_, hd⟩
  · have hne : front ≠ [] := by
      rintro rfl
      rw [hs] at h
      exact h (by decide)
    obtain ⟨c, cs, rfl⟩ := List.exists_cons_of_ne_nil hne
    rw [hd, hs]
    rfl
  · rw [hd]

theorem unended_append {s t : String} (h : t.toList ≠ []) : unended (s ++ t) = s ++ unended t := by
  rw [← String.toList_inj]
  simp only [unended, String.toList_append, String.toList_ofList]
  rcases getLast?_cases t.toList with ⟨front, ht, hd⟩ | ⟨hlast, hd⟩
  · rw [hd, ht, ← List.append_assoc, dropCarriageReturn, List.getLast?_concat, if_pos rfl,
      List.dropLast_concat]
  · have hstill : (s.toList ++ t.toList).getLast? ≠ some '\r' := by
      rw [List.getLast?_append, List.getLast?_eq_some_getLast h]
      rwa [List.getLast?_eq_some_getLast h] at hlast
    rw [hd, dropCarriageReturn, if_neg hstill]

/-- The carriage return would be trimmed anyway. -/
theorem trimEnd_unended (s : String) : trimEnd (unended s) = trimEnd s := by
  unfold unended trimEnd
  rw [String.toList_ofList]
  rcases getLast?_cases s.toList with ⟨front, hs, hd⟩ | ⟨_, hd⟩
  · have hblank : isBlank '\r' = true := by decide
    rw [hd, hs, dropEndWhile, dropEndWhile, List.reverse_append, List.reverse_singleton,
      List.singleton_append, List.dropWhile_cons_of_pos hblank]
  · rw [hd]

end Text

namespace Script

/-! ## One text -/

def escaped (text : String) : String :=
  if text.toList.all Text.isBlank then stripMarker
  else if text.toList.head? = some '#' then stripMarker ++ text
  else text

theorem escaped_ne_empty (text : String) : escaped text ≠ "" := by
  unfold escaped
  split
  · decide
  split
  · rw [ne_eq, ← String.toList_inj]
    simp [stripMarker]
  · rename_i hblank _
    rintro rfl
    exact hblank rfl

theorem notMem_escaped {text : String} (h : '\n' ∉ text.toList) : '\n' ∉ (escaped text).toList := by
  have hmark : '\n' ∉ stripMarker.toList := by decide
  unfold escaped
  split
  · exact hmark
  split
  · simp [hmark, h]
  · exact h

/-- Behind the mark a line that begins as a directive does is content. -/
theorem classify_marked {text : String} {cs : List Char} (h : text.toList = '#' :: cs) :
    classify (stripMarker ++ text) = .content text := by
  have hfirst : Text.isBlank '#' = false := by decide
  have hline : (stripMarker ++ text).toList = '#' :: '#' :: '#' :: cs := by
    rw [String.toList_append, h]
    rfl
  have hmarked : Text.after? stripMarker (stripMarker ++ text) = some text := by
    rw [Text.after?, String.toList_append, if_pos]
    · have hdrop : (stripMarker.toList ++ text.toList).drop stripMarker.length = text.toList := rfl
      rw [hdrop, String.ofList_toList]
    · exact List.isPrefixOf_iff_prefix.2 (List.prefix_append _ _)
  have hnot : Text.after? directiveMarker (stripMarker ++ text) = none := by
    rw [Text.after?, hline, if_neg]
    simp [directiveMarker]
  unfold classify
  rw [hline, if_neg (by simp [hfirst]), hnot, hmarked]
  simp only [h]
  rw [List.dropWhile_cons_of_neg (by decide), ← h, String.ofList_toList]

/-- So is a line that does not begin like that. -/
theorem classify_plain {text : String} (hblank : text.toList.all Text.isBlank ≠ true)
    (hhead : text.toList.head? ≠ some '#') : classify text = .content text := by
  have hplain : ∀ marker : String, marker.toList.head? = some '#' → Text.after? marker text = none := by
    intro marker hm
    rw [Text.after?, if_neg]
    rw [List.isPrefixOf_iff_prefix]
    rintro ⟨rest, hrest⟩
    rw [← hrest, List.head?_append, hm] at hhead
    exact hhead rfl
  unfold classify
  rw [if_neg hblank, hplain _ (by decide), hplain _ (by decide)]

/-- The line is content, and the text but for blanks at its end. -/
theorem classify_escaped (text : String) :
    ∃ u, classify (escaped text) = .content u ∧ Text.trimEnd u = Text.trimEnd text := by
  unfold escaped
  split
  · rename_i hblank
    refine ⟨"", by decide +kernel, ?_⟩
    have hall : ∀ c ∈ text.toList.reverse, Text.isBlank c = true := by simpa using hblank
    have hnone : Text.dropEndWhile Text.isBlank text.toList = [] := by
      rw [Text.dropEndWhile, List.dropWhile_eq_nil_iff.2 hall, List.reverse_nil]
    have htrim : Text.trimEnd text = String.ofList [] := by rw [Text.trimEnd, hnone]
    rw [htrim]
    decide
  rename_i hblank
  split
  · rename_i hhead
    obtain ⟨cs, hcs⟩ := List.head?_eq_some_iff.1 hhead
    exact ⟨text, classify_marked hcs, rfl⟩
  · rename_i hhead
    exact ⟨text, classify_plain hblank hhead, rfl⟩

/-- What the line end takes from the line it takes from the text. -/
theorem unended_escaped (text : String) :
    Text.unended (escaped text) = escaped (Text.unended text) := by
  unfold escaped
  rw [Text.all_unended]
  split
  · decide +kernel
  rename_i hblank
  rw [Text.head?_unended hblank]
  split
  · rename_i hhead
    refine Text.unended_append fun he => ?_
    rw [he] at hhead
    cases hhead
  · rfl

/-! ## Scripts -/

def openLine (name : String) : String := "#> open \"" ++ name ++ "\""

def scriptFor (name : String) (texts : List String) : String :=
  "\n".intercalate (openLine name :: texts.map escaped)

def produced (texts : List String) : ByteArray :=
  (String.join (texts.map fun text => Text.trimEnd text ++ "\n")).toUTF8

/-- The lines send the texts, each one its own. -/
inductive Carries : (texts lines : List String) → Prop
  | nil : Carries [] []
  | cons {text line u : String} {texts lines : List String} : classify line = .content u →
      Text.trimEnd u = Text.trimEnd text → Carries texts lines →
      Carries (text :: texts) (line :: lines)

theorem tokensFrom_within {q : Char} {word : List Char} (h : q ∉ word) (start cs : List Char) :
    tokensFrom (some q) (some start) (word ++ q :: cs) = tokensFrom none (some (start ++ word)) cs := by
  induction word generalizing start with
  | nil => simp [tokensFrom]
  | cons c word ih =>
    rw [List.mem_cons, not_or] at h
    rw [List.cons_append, tokensFrom, if_neg (Ne.symm h.1), Option.getD_some, ih h.2,
      List.append_assoc, List.singleton_append]

theorem classify_openLine {name : String} (h : '"' ∉ name.toList) :
    classify (openLine name) = .directive (.open name) := by
  have htokens : tokenize (String.ofList ('"' :: (name.toList ++ ['"']))) = [name] := by
    unfold tokenize
    rw [String.toList_ofList, tokensFrom, if_pos (by decide), Option.getD_none,
      tokensFrom_within h]
    simp [tokensFrom]
  have hparse : Directive.parse "open" (String.ofList ((' ' :: '"' :: (name.toList ++ ['"'])).drop 1)) =
      .ok (some (.open name)) := by
    rw [List.drop_one, List.tail_cons]
    unfold Directive.parse
    simp only [Directive.ofPath, htokens]
    rfl
  have hline : openLine name = String.ofList
      (directiveMarker.toList ++ "open".toList ++ (' ' :: '"' :: (name.toList ++ ['"']))) := by
    rw [← String.toList_inj, String.toList_ofList, openLine, String.toList_append,
      String.toList_append]
    simp [directiveMarker]
  rw [hline]
  obtain ⟨hne, hname⟩ : "open".toList ≠ [] ∧ ∀ c ∈ "open".toList, Text.isBlank c = false :=
    name_plain (.open name)
  exact classify_written hne hname (by rintro c ⟨⟩; decide) hparse

theorem notMem_openLine {name : String} (h : '\n' ∉ name.toList) : '\n' ∉ (openLine name).toList := by
  simp [openLine, h]

theorem unended_openLine (name : String) : Text.unended (openLine name) = openLine name := by
  have hlast : (openLine name).toList.getLast? = some '"' := by
    rw [openLine, String.toList_append, List.getLast?_append]
    rfl
  unfold Text.unended Text.dropCarriageReturn
  rw [hlast, if_neg (by decide), String.ofList_toList]

theorem carries_escaped {texts : List String} (hne : texts ≠ []) (h : ∀ text ∈ texts, '\n' ∉ text.toList) :
    Carries texts (Text.lines ("\n".intercalate (texts.map escaped))) := by
  induction texts with
  | nil => exact absurd rfl hne
  | cons text texts ih =>
    have htext := notMem_escaped (h text List.mem_cons_self)
    cases texts with
    | nil =>
      rw [List.map_singleton, String.intercalate_singleton,
        Text.lines_single htext (escaped_ne_empty text)]
      obtain ⟨u, hu, htrim⟩ := classify_escaped text
      exact .cons hu htrim .nil
    | cons next texts =>
      rw [List.map_cons, List.map_cons, String.intercalate_cons_cons, ← List.map_cons,
        Text.lines_append htext, unended_escaped]
      obtain ⟨u, hu, htrim⟩ := classify_escaped (Text.unended text)
      rw [Text.trimEnd_unended] at htrim
      exact .cons hu htrim (ih (by simp) fun t ht => h t (List.mem_cons_of_mem _ ht))

theorem carries_scriptFor {name : String} {texts : List String} (hname : '\n' ∉ name.toList)
    (h : ∀ text ∈ texts, '\n' ∉ text.toList) :
    ∃ lines, Text.lines (scriptFor name texts) = openLine name :: lines ∧ Carries texts lines := by
  have hopen := notMem_openLine hname
  cases texts with
  | nil =>
    refine ⟨[], ?_, .nil⟩
    rw [scriptFor, List.map_nil, String.intercalate_singleton, Text.lines_single hopen]
    rw [ne_eq, ← String.toList_inj]
    simp [openLine]
  | cons text texts =>
    refine ⟨_, ?_, carries_escaped (by simp) h⟩
    rw [scriptFor, List.map_cons, String.intercalate_cons_cons, ← List.map_cons,
      Text.lines_append hopen, unended_openLine]

end Script

end Datapack
