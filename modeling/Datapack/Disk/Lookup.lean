import Datapack.Disk.Tree
import Datapack.Disk.Fault

/-
  Datapack.Disk.Lookup — following a path through a file tree.

  A `Disk` is a file tree with a working directory, where relative paths begin. Whoever
  works in a directory keeps it when it is removed: it is empty from then on and nothing
  can be made in it, but `..` still leads to the directory it was in.

  A path is followed name by name. `.` stays, `..` goes to the parent (the root is its
  own), any other name is looked up in the directory reached so far. A link in the
  middle is always followed, one at the end as the caller says (`LastLink`); a link's
  target begins where the link stands, or at the root. Forty links may be followed. A
  name has at most 255 bytes and the text of a path 4095. A trailing separator asks for a
  directory, as a trailing `.` does.

  A walk lands on a node, or on a vacant name in an existing directory (`Landing`). It
  keeps the directories that it has come through (`Trail`), so each name costs one look
  into one directory. Looking up never changes anything, so all here are plain functions
  of the disk.

  Stated here: what one name does to a walk, by what stands at the two places alone
  (`advance_cons`).
-/

namespace Datapack

/-- Where relative paths begin: in the directory at `base`, or, once that has happened,
`removed` levels below it in a directory that is not in the tree any more. -/
structure Workdir where
  base : Place
  removed : Nat
  deriving DecidableEq, Repr

structure Disk where
  tree : FileTree
  workdir : Workdir

inductive Landing where
  /-- On an existing node. -/
  | node (p : Place)
  /-- On a free name in an existing directory. -/
  | vacant (dir : Place) (name : String)
  /-- In a directory that has been removed. -/
  | removed
  deriving DecidableEq, Repr

inductive LastLink where
  /-- The link itself is meant. -/
  | keep
  | follow
  /-- It is followed to the place of a file that is to be written; no such place is
  named by a target that ends in a separator. -/
  | write
  deriving DecidableEq, Repr

inductive Advance where
  | landed (l : Landing)
  /-- At a link that stands in `dir`; the names in `rest` come after it. -/
  | atLink (dir : Place) (target : Path) (rest : List String)
  | failed (f : Fault)

def maxLinks : Nat := 40

namespace Path

/-- The names to walk along; a trailing separator asks for a directory. -/
def steps (p : Path) : List String :=
  if p.endsInSeparator && p.names ≠ [] then p.names ++ ["."] else p.names

end Path

namespace FileTree

/-- The way to a place from the root: each name with the directory that it stands in, the
last one first. -/
abbrev Trail := List (String × Branch)

def Trail.place (trail : Trail) : Place := (trail.map Prod.fst).reverse

def follow (way : Trail × Branch) (name : String) : Option (Trail × Branch) :=
  (way.2.sub? [name]).map ((name, way.2) :: way.1, ·)

def trail? (t : FileTree) (p : Place) : Option (Trail × Branch) :=
  p.foldlM follow ([], t.root)

/-- Walks along names, as far as the first link to be followed. The walk has come along
`trail` to the branch given. -/
def descend (t : FileTree) (last : LastLink) : Trail → Branch → List String → Advance
  | trail, _, [] => .landed (.node trail.place)
  | trail, .dir es, name :: rest =>
    if name = "." then descend t last trail (.dir es) rest
    else if name = ".." then
      match trail with
      | [] => descend t last [] (.dir es) rest
      | (_, above) :: trail => descend t last trail above rest
    else if maxNameBytes < name.utf8ByteSize then .failed .nameTooLong
    else match Entries.under? name es with
      | none => if rest = [] then .landed (.vacant trail.place name) else .failed .notFound
      | some (.link target) =>
        if rest = [] && last = .keep then .landed (.node (trail.place ++ [name]))
        else .atLink trail.place target rest
      | some b => descend t last ((name, .dir es) :: trail) b rest
  | _, _, _ :: _ => .failed .notADirectory

def advance (t : FileTree) (last : LastLink) (cur : Place) (names : List String) : Advance :=
  match t.trail? cur with
  | some (trail, b) => t.descend last trail b names
  | none => if names = [] then .landed (.node cur) else .failed .notADirectory

@[simp] theorem trail?_nil (t : FileTree) : t.trail? [] = some ([], t.root) := rfl

theorem trail?_concat (t : FileTree) (p : Place) (name : String) :
    t.trail? (p ++ [name]) = (t.trail? p).bind fun way => follow way name := by
  simp only [trail?, List.foldlM_append, List.foldlM_cons, List.foldlM_nil]
  cases List.foldlM follow ([], t.root) p with
  | none => rfl
  | some way => simp

/-- There is a trail to just the places where something stands, and it leads there. -/
theorem trail?_reverse (t : FileTree) (names : List String) :
    (t.trail? names.reverse).map Prod.snd = t.root.sub? names.reverse ∧
      ∀ way, t.trail? names.reverse = some way → way.1.place = names.reverse := by
  induction names with
  | nil => exact ⟨by cases h : t.root <;> simp [h, Branch.sub?], fun way h => by cases h; rfl⟩
  | cons name names ih =>
    simp only [List.reverse_cons, trail?_concat, Branch.sub?_append, ← ih.1]
    cases h : t.trail? names.reverse with
    | none => simp
    | some way =>
      refine ⟨?_, fun next hnext => ?_⟩
      · simp [follow, Function.comp_def]
      · simp only [Option.bind_some, follow, Option.map_eq_some_iff] at hnext
        obtain ⟨b, -, rfl⟩ := hnext
        have := ih.2 way h
        simp_all [Trail.place]

theorem sub?_root (t : FileTree) (p : Place) : t.root.sub? p = (t.trail? p).map Prod.snd := by
  simpa using (t.trail?_reverse p.reverse).1.symm

theorem place_of_trail? {t : FileTree} {p : Place} {way : Trail × Branch}
    (h : t.trail? p = some way) : way.1.place = p := by
  simpa using (t.trail?_reverse p.reverse).2 way (by simpa using h)

/-- A trail without its last name leads to the directory that name stands in. -/
theorem trail?_dropLast {t : FileTree} {p : Place} {way : Trail × Branch}
    (h : t.trail? p = some way) :
    t.trail? p.dropLast = match way with
      | ([], b) => some ([], b)
      | ((_, above) :: trail, _) => some (trail, above) := by
  have hp := place_of_trail? h
  obtain ⟨trail, b⟩ := way
  cases trail with
  | nil =>
    have : p = [] := by simpa [Trail.place] using hp.symm
    subst this
    simpa using h
  | cons step trail =>
    obtain ⟨name, above⟩ := step
    have hp : p = Trail.place trail ++ [name] := by simpa [Trail.place] using hp.symm
    subst hp
    rw [trail?_concat] at h
    obtain ⟨way, hw, hf⟩ := Option.bind_eq_some_iff.1 h
    simp only [follow, Option.map_eq_some_iff] at hf
    obtain ⟨c, -, hc⟩ := hf
    cases hc
    simpa using hw

theorem advance_nil (t : FileTree) (last : LastLink) (cur : Place) :
    t.advance last cur [] = .landed (.node cur) := by
  unfold advance
  split
  · rename_i h
    simp [descend, place_of_trail? h]
  · simp

/-- One step of a walk, by what stands where it is and where the name leads. -/
theorem advance_cons (t : FileTree) (last : LastLink) (cur : Place) (name : String)
    (rest : List String) : t.advance last cur (name :: rest) =
      if t.get? cur = some .dir then
        if name = "." then t.advance last cur rest
        else if name = ".." then t.advance last cur.dropLast rest
        else if maxNameBytes < name.utf8ByteSize then .failed .nameTooLong
        else match t.get? (cur ++ [name]) with
          | none => if rest = [] then .landed (.vacant cur name) else .failed .notFound
          | some (.link target) =>
            if rest = [] && last = .keep then .landed (.node (cur ++ [name]))
            else .atLink cur target rest
          | some _ => t.advance last (cur ++ [name]) rest
      else .failed .notADirectory := by
  simp only [advance, get?, Branch.get?, sub?_root, trail?_concat]
  cases h : t.trail? cur with
  | none => simp
  | some way =>
    have place := place_of_trail? h
    have up := trail?_dropLast h
    obtain ⟨trail, b⟩ := way
    cases b with
    | file | link => simp [descend, Branch.node]
    | dir es =>
      simp only [descend, Option.map_some, Branch.node, if_true, up, place, Option.bind_some]
      split
      · rfl
      split
      · cases trail <;> rfl
      split
      · rfl
      have down : (Branch.dir es).sub? [name] = Entries.under? name es := by
        simp only [Branch.sub?]
        cases Entries.under? name es with
        | none => rfl
        | some c => cases c <;> rfl
      simp only [follow, down]
      cases Entries.under? name es with
      | none => simp
      | some c => cases c <;> simp [Branch.node]

def walk (t : FileTree) (last : LastLink) : Nat → Place → List String → Except Fault Landing
  | links, cur, names =>
    match t.advance last cur names with
    | .landed l => .ok l
    | .failed f => .error f
    | .atLink dir target rest =>
      match links with
      | 0 => .error .tooManyLinks
      | links + 1 =>
        let base := if target.isAbsolute then [] else dir
        if rest ≠ [] then walk t last links base (target.names ++ rest)
        else if last = .write && target.endsInSeparator then
          match walk t last links base (target.names.dropLast ++ ["."]) with
          | .error f => .error f
          | .ok _ => .error .isADirectory
        else walk t last links base target.steps

end FileTree

/-- Leaves removed directories: the names that remain to be walked from the base, if the
walk gets there. -/
def Workdir.leave : (removed : Nat) → List String → Except Fault (Option (List String))
  | 0, names => .ok (some names)
  | _ + 1, [] => .ok none
  | removed + 1, name :: rest =>
    if name = "." then leave (removed + 1) rest
    else if name = ".." then leave removed rest
    else .error .notFound

namespace Disk

/-- Where the path `p` leads, however long it is, walked along the given names. -/
def locate (d : Disk) (last : LastLink) (p : Path) (names : List String) : Except Fault Landing :=
  if p.text = "" then .error .notFound
  else if p.isAbsolute then d.tree.walk last maxLinks [] names
  else match Workdir.leave d.workdir.removed names with
    | .ok (some names) => d.tree.walk last maxLinks d.workdir.base names
    | .ok none => .ok .removed
    | .error f => .error f

def land (d : Disk) (last : LastLink) (p : Path) (names : List String) : Except Fault Landing :=
  if p.hasNul then .error .nulInPath
  else if maxPathBytes < p.text.utf8ByteSize then .error .nameTooLong
  else d.locate last p names

def find (d : Disk) (p : Path) : Except Fault Place :=
  match d.land .follow p p.steps with
  | .ok (.node place) => .ok place
  | .ok _ => .error .notFound
  | .error f => .error f

def node (d : Disk) (last : LastLink) (p : Path) : Except Fault Node :=
  match d.land last p p.steps with
  | .ok (.node place) => match d.tree.get? place with
    | some n => .ok n
    | none => .error .notFound
  | .ok (.vacant _ _) => .error .notFound
  | .ok .removed => .ok .dir
  | .error f => .error f

def isDir (d : Disk) (p : Path) : Bool :=
  match d.node .follow p with
  | .ok .dir => true
  | _ => false

def isFile (d : Disk) (p : Path) : Bool :=
  match d.node .follow p with
  | .ok (.file _) => true
  | _ => false

/-- The path without links, `.` and `..` that leads to the same node. What is named from
a removed directory has none. The path itself may be of any length, its canonical form
may not. -/
def canonical (d : Disk) (p : Path) : Except Fault Path :=
  if p.hasNul then .error .nulInPath
  else if !p.isAbsolute && d.workdir.removed ≠ 0 then .error .notFound
  else match d.locate .follow p p.steps with
    | .ok (.node place) =>
      let path := Path.ofPlace place
      if maxPathBytes < path.text.utf8ByteSize then .error .nameTooLong else .ok path
    | .ok _ => .error .notFound
    | .error f => .error f

def read (d : Disk) (p : Path) : Except Fault ByteArray :=
  match d.node .follow p with
  | .ok (.file bytes) => .ok bytes
  | .ok _ => .error .isADirectory
  | .error f => .error f

def list (d : Disk) (p : Path) : Except Fault (List (String × Node)) :=
  match d.land .follow p p.steps with
  | .error f => .error f
  | .ok .removed => .ok []
  | .ok (.vacant _ _) => .error .notFound
  | .ok (.node place) =>
    if d.tree.isDir place then .ok (d.tree.entries place) else .error .notADirectory

end Disk

end Datapack
