/-
  Datapack.Text.Stretches — cutting a text at a separator, and at line ends.

  `stretches sep` gives what lies between the separators, empty stretches included, so
  nothing but the separators is lost and joining gives the text back. Source lines are
  stretches between line feeds: a carriage return right before a line feed belongs to
  the line end, and a last line needs no line end.

  Stated here: cutting distributes over a separator (`stretches_append`), a text without
  separators is one stretch (`stretches_eq_singleton`), and stretches hold no separator
  (`not_mem_of_mem_stretches`).
-/

namespace Datapack.Text

/-- What lies between the separators; never empty. -/
def stretches (sep : Char) : List Char → List (List Char)
  | [] => [[]]
  | c :: cs =>
    if c = sep then [] :: stretches sep cs
    else match stretches sep cs with
      | [] => [[c]]
      | s :: ss => (c :: s) :: ss

/-- A line without the carriage return that its line end may start with. -/
def dropCarriageReturn (line : List Char) : List Char :=
  if line.getLast? = some '\r' then line.dropLast else line

def lines (text : String) : List String :=
  let cut := stretches '\n' text.toList
  let ended := cut.dropLast.map dropCarriageReturn
  let last := cut.getLast?.toList.filter (· ≠ [])
  (ended ++ last).map String.ofList

/-! ## Laws of cutting -/

theorem stretches_ne_nil (sep : Char) (cs : List Char) : stretches sep cs ≠ [] := by
  cases cs with
  | nil => simp [stretches]
  | cons c cs => simp only [stretches]; split <;> (try split) <;> simp

theorem stretches_eq_singleton {sep : Char} {cs : List Char} (h : sep ∉ cs) :
    stretches sep cs = [cs] := by
  induction cs with
  | nil => rfl
  | cons c cs ih =>
    simp only [List.mem_cons, not_or] at h
    simp [stretches, ih h.2, Ne.symm h.1]

theorem stretches_append (sep : Char) (a b : List Char) :
    stretches sep (a ++ sep :: b) = stretches sep a ++ stretches sep b := by
  induction a with
  | nil => simp [stretches]
  | cons c a ih =>
    by_cases h : c = sep
    · simp [stretches, h, ih]
    · simp only [List.cons_append, stretches, h, if_false, ih]
      cases ha : stretches sep a with
      | nil => exact absurd ha (stretches_ne_nil sep a)
      | cons s ss => simp

theorem not_mem_of_mem_stretches {sep : Char} {cs s : List Char} (h : s ∈ stretches sep cs) :
    sep ∉ s := by
  induction cs generalizing s with
  | nil => simp [stretches] at h; simp [h]
  | cons c cs ih =>
    simp only [stretches] at h
    split at h
    · rcases List.mem_cons.1 h with rfl | h
      · simp
      · exact ih h
    · rename_i hc
      split at h
      · rename_i heq; exact absurd heq (stretches_ne_nil sep cs)
      · rename_i t ts heq
        rcases List.mem_cons.1 h with rfl | h
        · have := ih (s := t) (by simp [heq])
          simp [this, Ne.symm hc]
        · exact ih (by simp [heq, h])

end Datapack.Text
