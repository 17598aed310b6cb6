import Datapack.Proofs.Calls

/-
  Datapack.Proofs.Folding — on a disk without links the folded path is the path.

  Folding drops names without a look at the disk, so it can say nothing of what the disk
  would have refused on the way. But once a path is walked to a node, the folded path is
  walked to the same node, and it is what the disk gives as the canonical path
  (`land_normalize`). The walk through directories and back is the fold of its names
  (`place?_of_walk`); what is left to see is that the folded path fits on the disk too,
  and that takes counting bytes: what is folded away only makes a text shorter
  (`size_normalize_le`).
-/

namespace Datapack

namespace Path

/-! ## The room that names take -/

/-- The bytes of some names, with one more for the separator of each. -/
def room : List String → Nat
  | [] => 0
  | name :: names => name.utf8ByteSize + 1 + room names

theorem room_le_of_sublist {a b : List String} (h : a.Sublist b) : room a ≤ room b := by
  induction h with
  | slnil => exact Nat.le_refl _
  | cons name _ ih => exact Nat.le_trans ih (Nat.le_add_left _ _)
  | cons_cons name _ ih => exact Nat.add_le_add_left ih _

/-- Joining names takes one separator less than there are names. -/
theorem size_intercalate (name : String) (names : List String) :
    ("/".intercalate (name :: names)).utf8ByteSize + 1 = room (name :: names) := by
  induction names generalizing name with
  | nil => rw [String.intercalate_singleton]; rfl
  | cons next names ih =>
    have hslash : "/".utf8ByteSize = 1 := rfl
    rw [String.intercalate_cons_of_ne_nil (List.cons_ne_nil _ _), String.utf8ByteSize_append,
      String.utf8ByteSize_append, room, ← ih next, hslash]
    omega

/-- The text of a place is as long as its names ask for; the root has a text as well. -/
theorem size_ofPlace (place : Place) :
    (ofPlace place).text.utf8ByteSize = if place = [] then 1 else room place := by
  cases place with
  | nil => rfl
  | cons name names =>
    have htext : (ofPlace (name :: names)).text = "/" ++ "/".intercalate (name :: names) := rfl
    have hslash : "/".utf8ByteSize = 1 := rfl
    rw [htext, String.utf8ByteSize_append, hslash, Nat.add_comm, size_intercalate,
      if_neg (List.cons_ne_nil _ _)]

/-- Cutting a text keeps its bytes, with one separator less than there are stretches. -/
theorem room_stretches (cs : List Char) :
    room ((Text.stretches '/' cs).map String.ofList) = (String.ofList cs).utf8ByteSize + 1 := by
  induction cs with
  | nil => rfl
  | cons c cs ih =>
    rw [String.ofList_cons, String.utf8ByteSize_append, Text.stretches]
    split
    · rename_i hc
      subst hc
      rw [List.map_cons, room, ih]
      have hslash : (String.singleton '/').utf8ByteSize = 1 := rfl
      have hnil : (String.ofList []).utf8ByteSize = 0 := rfl
      omega
    · split
      · rename_i hnil
        exact absurd hnil (Text.stretches_ne_nil '/' cs)
      · rename_i s ss hcut
        rw [hcut] at ih
        rw [List.map_cons, room] at ih ⊢
        rw [String.ofList_cons, String.utf8ByteSize_append]
        omega

/-- The names of an absolute path have room in its text. -/
theorem room_names_le {p : Path} (hp : p.isAbsolute = true) :
    room p.names ≤ p.text.utf8ByteSize := by
  cases hl : p.text.toList with
  | nil => simp [isAbsolute, hl] at hp
  | cons c cs =>
    obtain rfl : c = '/' := by simpa [isAbsolute, hl] using hp
    have hnames : p.names = ((Text.stretches '/' cs).filter (· ≠ [])).map String.ofList := by
      rw [names, pieces, hl, Text.stretches, if_pos rfl, List.filter_cons_of_neg (by simp)]
    have hsub : p.names.Sublist ((Text.stretches '/' cs).map String.ofList) := by
      rw [hnames]
      exact List.filter_sublist.map String.ofList
    have htext : p.text = String.singleton '/' ++ String.ofList cs := by
      rw [← String.ofList_cons, ← hl, String.ofList_toList]
    have hslash : (String.singleton '/').utf8ByteSize = 1 := rfl
    have hle := room_le_of_sublist hsub
    rw [room_stretches] at hle
    rw [htext, String.utf8ByteSize_append]
    omega

/-! ## Folding -/

theorem foldl_foldName_sublist (start names : List String) :
    (names.foldl foldName start).Sublist (start ++ names) := by
  induction names generalizing start with
  | nil => simp
  | cons name names ih =>
    have hstep : (foldName start name).Sublist (start ++ [name]) := by
      unfold foldName
      split
      · exact List.sublist_append_left _ _
      split
      · exact (List.dropLast_sublist start).trans (List.sublist_append_left _ _)
      · exact List.Sublist.refl _
    rw [List.foldl_cons, List.append_cons]
    exact (ih _).trans (hstep.append_right names)

theorem fold_sublist (names : List String) : (fold names).Sublist names :=
  foldl_foldName_sublist [] names

/-- A folded path is not longer than the path. -/
theorem size_normalize_le {p : Path} (hp : p.isAbsolute = true) :
    p.normalize.text.utf8ByteSize ≤ p.text.utf8ByteSize := by
  have hnames := Nat.le_trans (room_le_of_sublist (fold_sublist p.names)) (room_names_le hp)
  rw [normalize_eq_ofPlace hp, size_ofPlace]
  split
  · -- The root is one separator, and an absolute path has one.
    have hne : p.text.utf8ByteSize ≠ 0 := by
      rw [ne_eq, String.utf8ByteSize_eq_zero_iff]
      exact text_ne_empty hp
    omega
  · exact hnames

end Path

/-! ## Walking the folded path -/

namespace FileTree

variable {t : FileTree}

/-- Without links it does not matter what becomes of a link at the end. -/
theorem advance_eq_of_linkFree (ht : t.LinkFree) (last last' : LastLink) (cur : Place)
    (names : List String) : t.advance last cur names = t.advance last' cur names := by
  induction names generalizing cur with
  | nil => rw [advance_nil, advance_nil]
  | cons name rest ih =>
    rw [advance_cons, advance_cons, ih cur, ih cur.dropLast, ih (cur ++ [name])]
    cases hget : t.get? (cur ++ [name]) with
    | none => rfl
    | some node =>
      cases node with
      | dir | file => rfl
      | link target => exact absurd hget (ht _ target)

theorem walk_eq_of_linkFree (ht : t.LinkFree) (last last' : LastLink) {links : Nat} {cur : Place}
    {names : List String} {l : Landing} (h : t.walk last links cur names = .ok l) :
    t.walk last' links cur names = .ok l := by
  unfold walk at h ⊢
  rw [advance_eq_of_linkFree ht last' last]
  rcases advance_of_linkFree ht last cur names with ⟨f, hf⟩ | ⟨l', hl, -⟩
  · rw [hf] at h; cases h
  · rw [hl] at h ⊢; exact h

end FileTree

namespace Disk

variable {d : Disk}

/-- Where something stands, the canonical path of the place leads. -/
theorem land_ofPlace (hd : d.tree.LinkFree) (last : LastLink) {place : Place}
    (hc : Path.Clean place) (hget : d.tree.get? place ≠ none)
    (hsize : (Path.ofPlace place).text.utf8ByteSize ≤ maxPathBytes) :
    d.land last (Path.ofPlace place) (Path.ofPlace place).steps = .ok (.node place) := by
  have hentry := FileTree.isEntryName_of_get? hget
  have hwalk := FileTree.walk_of_get? hd last maxLinks hc hget
  rw [steps_of_isCanonical (Path.isCanonical_ofPlace hentry), Path.names_ofEntries hentry,
    land_of_isAbsolute (Path.isAbsolute_ofPlace place), Path.hasNul_ofPlace hentry,
    if_neg Bool.false_ne_true, if_neg (Nat.not_lt.2 hsize), hwalk]

theorem node_of_land {last : LastLink} {p : Path} {place : Place} {node : Node}
    (h : d.land last p p.steps = .ok (.node place)) (hn : d.tree.get? place = some node) :
    d.node last p = .ok node := by
  unfold Disk.node
  simp only [h, hn]

/-- A path that leads to a node of a disk without links leads there when it is folded, and
its folded form is the canonical one. -/
theorem land_normalize (hd : d.tree.LinkFree) {p : Path} (hp : p.isAbsolute = true)
    {last : LastLink} {place : Place} (h : d.land last p p.steps = .ok (.node place)) :
    d.land last p.normalize p.normalize.steps = .ok (.node place) ∧
    (∃ node, d.tree.get? place = some node ∧ d.node last p = .ok node ∧
      d.node last p.normalize = .ok node) ∧
    d.canonical p = .ok p.normalize := by
  obtain ⟨hnul, hlen, hwalk⟩ := land_ok hp h
  have hplace := eq_fold_of_land_steps hd hp h
  have hfits : d.tree.get? place ≠ none := (land_steps hd hp h).1
  have hnormal : p.normalize = Path.ofPlace place := by
    rw [Path.normalize_eq_ofPlace hp, ← hplace]
  have hsize : (Path.ofPlace place).text.utf8ByteSize ≤ maxPathBytes :=
    hnormal ▸ Nat.le_trans (Path.size_normalize_le hp) hlen
  have hfolded : d.land last p.normalize p.normalize.steps = .ok (.node place) := by
    rw [hnormal]
    exact land_ofPlace hd last (hplace ▸ Path.fold_clean p.names) hfits hsize
  refine ⟨hfolded, ?_, ?_⟩
  · obtain ⟨node, hnode⟩ := Option.ne_none_iff_exists'.1 hfits
    exact ⟨node, hnode, node_of_land h hnode, node_of_land hfolded hnode⟩
  · have hlocate : d.locate .follow p p.steps = .ok (.node place) := by
      unfold locate
      rw [if_neg (Path.text_ne_empty hp), if_pos hp]
      exact FileTree.walk_eq_of_linkFree hd last .follow hwalk
    unfold canonical
    rw [hnul, hp, hlocate, hnormal]
    simp only [Bool.not_true, Bool.false_and, Bool.false_eq_true, if_false,
      if_neg (Nat.not_lt.2 hsize)]

/-- Steps up at the top, steps back and forth, and separators to spare. -/
theorem land_normalize_detour :
    let t := (FileTree.empty.add [] "t" .dir).add ["t"] "ws" (.file ⟨#[0x68]⟩)
    let d : Disk := ⟨t, ⟨["t"], 0⟩⟩
    let p : Path := ⟨"/..//t/./../t//ws"⟩
    d.land .follow p p.steps = .ok (.node ["t", "ws"]) ∧ p.normalize = ⟨"/t/ws"⟩ ∧
      d.land .follow ⟨"/t/ws"⟩ (⟨"/t/ws"⟩ : Path).steps = .ok (.node ["t", "ws"]) ∧
      d.canonical p = .ok ⟨"/t/ws"⟩ := by
  intro t d p
  have hfree : t.LinkFree :=
    (FileTree.linkFree_empty.add [] "t" (by simp)).add ["t"] "ws" (by simp)
  have hland : d.land .follow p p.steps = .ok (.node ["t", "ws"]) := ok_of_toOption (by decide +kernel)
  have hnormal : p.normalize = ⟨"/t/ws"⟩ := by decide +kernel
  obtain ⟨hfolded, -, hcanonical⟩ := land_normalize (d := d) hfree (p := p) (by decide +kernel) hland
  rw [hnormal] at hfolded hcanonical
  exact ⟨hland, hnormal, hfolded, hcanonical⟩

end Disk

end Datapack
