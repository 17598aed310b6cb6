import Datapack.Text.Stretches

/-
  Datapack.Path — paths as they are written, and their folded form.

  A path is a text; answers show it as it was given, so nothing in it is dropped. Its
  names are the non-empty stretches between separators, `.` and `..` among them. A
  `Place` is a position in a file tree, the names from the root down.

  - `join` puts a path behind a base: an absolute one replaces the base.
  - `normalize` folds the names without looking at any disk: `.` is dropped, `..` takes
    back the name before it, and nothing is taken back from the root or from nothing.
  - `parent?` and `fileName?` look at the last name, trailing separators and trailing
    `.` names aside; a path that is a lone `.` keeps it as a name that is no file's.
  - `isUnder` compares component by component, never as texts.

  Stated here: what folding leaves holds neither `.` nor `..` (`fold_clean`), folding
  keeps such a list (`fold_of_clean`), hence folding twice is folding once (`fold_fold`),
  and folding in two steps is folding in one (`fold_append`).
-/

namespace Datapack

/-- A position in a file tree: the names from the root down to it. -/
abbrev Place := List String

structure Path where
  text : String
  deriving DecidableEq, Repr, Inhabited

namespace Path

instance : ToString Path := ⟨Path.text⟩

def isAbsolute (p : Path) : Bool := p.text.toList.head? == some '/'

def endsInSeparator (p : Path) : Bool := p.text.toList.getLast? == some '/'

def pieces (p : Path) : List (List Char) := Text.stretches '/' p.text.toList

def names (p : Path) : List String := (p.pieces.filter (· ≠ [])).map String.ofList

def ofNames (absolute : Bool) (names : List String) : Path :=
  ⟨(if absolute then "/" else "") ++ "/".intercalate names⟩

def ofPlace (place : Place) : Path := ofNames true place

def join (base rest : Path) : Path :=
  if rest.isAbsolute then rest
  else if base.text = "" || base.endsInSeparator then ⟨base.text ++ rest.text⟩
  else ⟨base.text ++ "/" ++ rest.text⟩

def child (base : Path) (name : String) : Path := base.join ⟨name⟩

/-! ## Folding -/

def foldName (folded : List String) (name : String) : List String :=
  if name = "." then folded
  else if name = ".." then folded.dropLast
  else folded ++ [name]

def fold (names : List String) : List String := names.foldl foldName []

def normalize (p : Path) : Path := ofNames p.isAbsolute (fold p.names)

/-- The components: the names, under a mark for the root if there is one. -/
def components (p : Path) : List String :=
  if p.isAbsolute then "/" :: p.names else p.names

/-- Whether `p` is `root` or lies below it, by components. -/
def isUnder (p root : Path) : Bool := root.components.isPrefixOf p.components

/-! ## The last name -/

/-- The pieces without trailing empty and `.` ones. The first piece stays: it marks the
root, or is where a relative path begins. -/
def trimPieces : List (List Char) → List (List Char)
  | [] => []
  | first :: rest =>
    first :: (rest.reverse.dropWhile fun piece => piece = [] || piece = ['.']).reverse

/-- Pieces as a path; the lone first piece of an absolute path is the root. -/
def ofPieces (absolute : Bool) (pieces : List (List Char)) : Path :=
  if absolute && pieces = [[]] then ⟨"/"⟩
  else ⟨"/".intercalate (pieces.map String.ofList)⟩

/-- The path without its last name; none for the root and for the empty path. -/
def parent? (p : Path) : Option Path :=
  match trimPieces p.pieces with
  | [] => none
  | [first] => if first = [] then none else some ⟨""⟩
  | first :: rest => some (ofPieces p.isAbsolute (trimPieces (first :: rest.dropLast)))

/-- The last name, unless it is `.` or `..` or there is none. -/
def fileName? (p : Path) : Option String :=
  match (trimPieces p.pieces).getLast? with
  | none => none
  | some last => if last = [] || last = ['.'] || last = ['.', '.'] then none
    else some (String.ofList last)

/-! ## Laws of folding -/

def Clean (names : List String) : Prop := ∀ name ∈ names, name ≠ "." ∧ name ≠ ".."

theorem clean_foldName {folded : List String} (h : Clean folded) (name : String) :
    Clean (foldName folded name) := by
  unfold foldName
  split
  · exact h
  · split
    · exact fun n hn => h n (List.dropLast_subset _ hn)
    · intro n hn
      rcases List.mem_append.1 hn with hn | hn
      · exact h n hn
      · simp only [List.mem_singleton] at hn; subst hn; exact ⟨‹_›, ‹_›⟩

theorem clean_foldl {start : List String} (h : Clean start) (names : List String) :
    Clean (names.foldl foldName start) := by
  induction names generalizing start with
  | nil => exact h
  | cons name names ih => exact ih (clean_foldName h name)

theorem fold_clean (names : List String) : Clean (fold names) :=
  clean_foldl (fun _ h => absurd h (List.not_mem_nil)) names

theorem foldl_of_clean {names : List String} (h : Clean names) (start : List String) :
    names.foldl foldName start = start ++ names := by
  induction names generalizing start with
  | nil => simp
  | cons name names ih =>
    have hn := h name (by simp)
    have := ih (fun n hn => h n (by simp [hn])) (start ++ [name])
    simp [foldName, hn.1, hn.2, this]

theorem fold_of_clean {names : List String} (h : Clean names) : fold names = names := by
  simp [fold, foldl_of_clean h]

theorem fold_fold (names : List String) : fold (fold names) = fold names :=
  fold_of_clean (fold_clean names)

/-- Folding a list behind a folded one is folding the two in a row. -/
theorem fold_append (a b : List String) : fold (fold a ++ b) = fold (a ++ b) := by
  have : (fold a).foldl foldName [] = fold a := fold_fold a
  simp only [fold, List.foldl_append] at *
  rw [this]

example : ofPlace ["t", "ws"] = ⟨"/t/ws"⟩ ∧ ofPlace [] = ⟨"/"⟩ := by decide +kernel
example : (⟨"a/./b//"⟩ : Path).parent? = some ⟨"a"⟩ ∧ (⟨"//x"⟩ : Path).parent? = some ⟨"/"⟩ := by
  decide +kernel
example : (⟨"a/."⟩ : Path).fileName? = some "a" ∧ (⟨"a/.."⟩ : Path).fileName? = none := by
  decide +kernel

end Path

end Datapack
