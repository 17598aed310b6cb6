import Datapack.Proofs.Effects
import Datapack.Proofs.Escaping

/-
  Datapack.Proofs.LineEnds — the lines of a text, whichever way they are ended.

  A line end is a line feed, or a carriage return and a line feed; the last line of a text
  need not have one, unless it is empty. So many texts have the same lines (`Spells`).
  Cutting any of them gives those lines back (`lines_of_spells`): no carriage return of a
  line end stays behind, where an argument or a message would show it.

  A run goes by the lines alone, so all these texts run alike, down to each note, and the
  last line that is numbered is the last there is (`run_of_spells`).
-/

namespace Datapack

namespace Text

inductive LineEnd where
  | feed
  | returnFeed
  deriving DecidableEq, Repr

def LineEnd.text : LineEnd → String
  | feed => "\n"
  | returnFeed => "\r\n"

/-- Whether a line can be told from its line end, whichever that is. -/
structure IsLine (line : String) : Prop where
  noFeed : '\n' ∉ line.toList
  noReturn : line.toList.getLast? ≠ some '\r'

/-- The text has these lines, each one ended in its own way. -/
inductive Spells : String → List String → Prop
  | nil : Spells "" []
  /-- The last line, without a line end. -/
  | last {line : String} (hne : line ≠ "") : Spells line [line]
  | cons {line rest : String} {lines : List String} (ending : LineEnd) (h : Spells rest lines) :
      Spells (line ++ ending.text ++ rest) (line :: lines)

variable {line text : String} {ls : List String}

theorem unended_of_isLine (h : IsLine line) : unended line = line := by
  unfold unended dropCarriageReturn
  rw [if_neg h.noReturn, String.ofList_toList]

/-- The carriage return of a line end is no part of the line. -/
theorem unended_append_return (line : String) : unended (line ++ "\r") = line := by
  have hreturn : "\r".toList = ['\r'] := by decide
  unfold unended dropCarriageReturn
  rw [String.toList_append, hreturn, List.getLast?_concat, if_pos rfl, List.dropLast_concat,
    String.ofList_toList]

theorem lines_ended (h : IsLine line) (ending : LineEnd) (rest : String) :
    lines (line ++ ending.text ++ rest) = line :: lines rest := by
  cases ending with
  | feed =>
    show lines (line ++ "\n" ++ rest) = line :: lines rest
    rw [lines_append h.noFeed, unended_of_isLine h]
  | returnFeed =>
    have hsplit : line ++ "\r\n" = line ++ "\r" ++ "\n" := by
      rw [String.append_assoc]
      rfl
    have hfeed : '\n' ∉ (line ++ "\r").toList := by
      simp [h.noFeed]
    show lines (line ++ "\r\n" ++ rest) = line :: lines rest
    rw [hsplit, lines_append hfeed, unended_append_return]

/-- A text is cut into the lines that it has. -/
theorem lines_of_spells (hls : ∀ line ∈ ls, IsLine line) (h : Spells text ls) : lines text = ls := by
  induction h with
  | nil => rfl
  | last hne => exact lines_single (hls _ List.mem_cons_self).noFeed hne
  | cons ending _ ih =>
    rw [lines_ended (hls _ List.mem_cons_self) ending, ih fun l hl => hls l (List.mem_cons_of_mem _ hl)]

end Text

namespace World

/-! ## The number of the line -/

/-- No directive changes the number of the line, -/
theorem Does.line {w w' : World} {d : Script.Directive} {kinds : List DiagnosticKind}
    (h : w.Does d w' kinds) : w'.session.line = w.session.line := by
  cases h <;> rfl

/-- nor does any other line. -/
theorem line_executeLine (w : World) (line : String) :
    (w.executeLine line).1.session.line = w.session.line := by
  rcases w.executeLine_cases line with ⟨_, he⟩ | ⟨_, _, _, hdoes⟩ | ⟨text, _, he⟩
  · rw [he]
  · exact hdoes.line
  · rw [he]
    rcases w.writeText_cases text with hw | ⟨_, _, _, _, _, hw⟩
    · rw [hw]
    · rw [hw]

theorem line_runLines (w : World) (n : Nat) {ls : List String} (hne : ls ≠ []) :
    (w.runLines n ls).1.session.line = n + ls.length := by
  induction ls generalizing w n with
  | nil => exact absurd rfl hne
  | cons line rest ih =>
    by_cases hrest : rest = []
    · subst hrest
      exact line_executeLine _ line
    · have hnext := ih ({ w with session.line := n + 1 }.executeLine line).1 (n + 1) hrest
      rw [Nat.add_assoc, Nat.add_comm 1] at hnext
      exact hnext

end World

/-! ## Runs -/

open Text

/-- However the lines of a script are ended, it runs alike: with the same disk, session and
notes in the end. The number of the line is that of the last one then. -/
theorem run_of_spells {ls : List String} (hls : ∀ line ∈ ls, IsLine line) {a b : String}
    (ha : Spells a ls) (hb : Spells b ls) (w : World) :
    w.run a = w.run b ∧ (ls ≠ [] → (w.run a).1.session.line = ls.length) := by
  have hrun : w.run a = w.runLines 0 ls := by
    rw [World.run, lines_of_spells hls ha]
  constructor
  · rw [hrun, World.run, lines_of_spells hls hb]
  · intro hne
    rw [hrun, World.line_runLines w 0 hne, Nat.zero_add]

/-- Three lines, one of them empty, with a carriage return in one text where there is none in
the other. The message of the `log` is without it. -/
theorem run_of_spells_mixed :
    let ls := ["#> log 'a", "", "b"]
    let unix := "#> log 'a\n\nb"
    let mixed := "#> log 'a\r\n\nb\r\n"
    let w : World := ⟨⟨.empty, ⟨[], 0⟩⟩, .begin ⟨"/"⟩ none⟩
    (∀ line ∈ ls, IsLine line) ∧ Spells unix ls ∧ Spells mixed ls ∧ w.run unix = w.run mixed ∧
      (w.run mixed).1.session.line = 3 ∧
      diagnostics (w.run mixed).2 = [⟨1, .log, "'a"⟩] := by
  intro ls unix mixed w
  have hls : ∀ line ∈ ls, IsLine line := by
    intro line hline
    simp only [ls, List.mem_cons, List.not_mem_nil, or_false] at hline
    rcases hline with h | h | h
    all_goals
      subst h
      exact ⟨by decide +kernel, by decide +kernel⟩
  have hunix : Spells unix ls := by
    have htext : unix = "#> log 'a" ++ LineEnd.feed.text ++ ("" ++ LineEnd.feed.text ++ "b") := by
      decide +kernel
    rw [htext]
    exact .cons .feed (.cons .feed (.last (by decide)))
  have hmixed : Spells mixed ls := by
    have htext : mixed = "#> log 'a" ++ LineEnd.returnFeed.text ++
        ("" ++ LineEnd.feed.text ++ ("b" ++ LineEnd.returnFeed.text ++ "")) := by
      decide +kernel
    rw [htext]
    exact .cons .returnFeed (.cons .feed (.cons .returnFeed .nil))
  obtain ⟨hsame, -⟩ := run_of_spells hls hunix hmixed w
  obtain ⟨-, hline⟩ := run_of_spells hls hmixed hunix w
  exact ⟨hls, hunix, hmixed, hsame, hline (by simp [ls]), by decide +kernel⟩

end Datapack
