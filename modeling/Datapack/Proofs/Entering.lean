import Datapack.Disk.Change
import Datapack.Proofs.Following

/-
  Datapack.Proofs.Entering — where a path begins, and where it leads.

  A path begins at the root or in the working directory. That may have been removed, and
  then the first names of the path only lead out of it; the tree has no part in that. So
  a look-up is a walk from some place along the last of the names (`Disk.Begins`,
  `locate_of_begins`, `begins_of_locate`), and more names behind the path are more names
  behind that walk. Whatever such a walk comes to is there, and a free name is in a
  directory and is one that a node can have, wherever the path begins (`vacant_fitsIn`,
  `node_fitsIn`).

  What stands in a tree has a path of its own, the canonical one: names that a node can
  have make one (`isCanonical_ofPlace`), one more name goes behind it (`child_eq`), and
  looking for the canonical path of anything gives such a path (`canonical_ok`).
-/

namespace Datapack

/-! ## The paths of a tree -/

namespace Path

theorem text_ne_empty {p : Path} (hp : p.isAbsolute = true) : p.text ≠ "" := by
  intro he
  simp [isAbsolute, he] at hp

theorem text_ofPlace_concat (place : Place) (name : String) : (ofPlace (place ++ [name])).text =
    (if place = [] then "" else (ofPlace place).text) ++ "/" ++ name := by
  by_cases hp : place = []
  · subst hp
    simp [ofPlace, ofNames]
  · rw [if_neg hp]
    simp only [ofPlace, ofNames, if_true]
    rw [String.intercalate_append_of_ne_nil hp (by simp), String.intercalate_singleton,
      ← String.append_assoc, ← String.append_assoc]

/-- One more name on a canonical path. -/
theorem IsCanonical.child_eq {p : Path} (hp : p.IsCanonical) {name : String} (hn : IsStretch name) :
    p.child name = ofPlace (p.names ++ [name]) := by
  have hstretch : ∀ n ∈ p.names, IsStretch n := fun _ => isStretch_of_mem_names
  have htext := text_ofPlace_concat p.names name
  rw [← hp.eq_ofPlace] at htext
  have hjoin : (p.child name).text = (ofPlace (p.names ++ [name])).text := by
    rw [htext, child, join, isAbsolute_of_isStretch hn, if_neg (by simp)]
    by_cases hne : p.names = []
    · have hroot : p = ⟨"/"⟩ := by
        rw [hp.eq_ofPlace, hne]
        rfl
      rw [if_pos hne, hroot, if_pos (by decide)]
      rfl
    · have hend : p.endsInSeparator = false := by
        rw [hp.eq_ofPlace]
        exact endsInSeparator_ofPlace hstretch hne
      rw [if_neg hne, if_neg]
      simp [hend, text_ne_empty hp.isAbsolute]
  cases hc : p.child name
  rw [hc] at hjoin
  cases hjoin
  rfl

theorem names_ofEntries {place : Place} (h : ∀ name ∈ place, isEntryName name = true) :
    (ofPlace place).names = place :=
  names_ofPlace fun name hm => isStretch_of_isEntryName (h name hm)

theorem names_entry {p : Path} {name : String} (hname : isEntryName name = true) :
    (p.child name).names = p.names ++ [name] := names_child (isStretch_of_isEntryName hname)

theorem isCanonical_ofPlace {place : Place} (h : ∀ name ∈ place, isEntryName name = true) :
    (ofPlace place).IsCanonical := by
  have hnames := names_ofEntries h
  refine ⟨by rw [hnames], ?_⟩
  rw [hnames]
  intro name hm
  obtain ⟨_, hdot, hdots, _⟩ := isEntryName_iff.1 (h name hm)
  exact ⟨hdot, hdots⟩

theorem IsCanonical.child_of_clean {p : Path} (hp : p.IsCanonical) {name : String}
    (hname : IsStretch name) (hdot : name ≠ "." ∧ name ≠ "..") : (p.child name).IsCanonical := by
  refine ⟨by rw [names_child hname, ← hp.child_eq hname], ?_⟩
  rw [names_child hname]
  intro n hm
  rcases List.mem_append.1 hm with hm | hm
  · exact hp.clean n hm
  · rw [List.mem_singleton.1 hm]
    exact hdot

theorem IsCanonical.child {p : Path} (hp : p.IsCanonical) {name : String}
    (hname : isEntryName name = true) : (p.child name).IsCanonical := by
  obtain ⟨⟨hstretch, _⟩, hdot, hdots, _⟩ := isEntryName_iff.1 hname
  exact hp.child_of_clean hstretch ⟨hdot, hdots⟩

theorem mem_of_mem_intercalate {sep c : Char} {pieces : List (List Char)}
    (h : c ∈ [sep].intercalate pieces) : c = sep ∨ ∃ s ∈ pieces, c ∈ s := by
  induction pieces with
  | nil => cases h
  | cons s rest ih =>
    cases rest with
    | nil => exact .inr ⟨s, List.mem_cons_self, by simpa using h⟩
    | cons t rest =>
      rw [List.intercalate_cons_cons, List.append_assoc] at h
      rcases List.mem_append.1 h with h | h
      · exact .inr ⟨s, List.mem_cons_self, h⟩
      rcases List.mem_append.1 h with h | h
      · exact .inl (List.mem_singleton.1 h)
      · rcases ih h with h | ⟨u, hu, hc⟩
        · exact .inl h
        · exact .inr ⟨u, List.mem_cons_of_mem _ hu, hc⟩

theorem hasNul_ofSteps {place : Place} (h : ∀ name ∈ place, IsStepName name) :
    (ofPlace place).hasNul = false := by
  have htext : (ofPlace place).text.toList = '/' :: ['/'].intercalate (place.map String.toList) := by
    simp [ofPlace, ofNames, String.toList_intercalate]
  unfold hasNul
  rw [htext, List.contains_eq_mem, decide_eq_false_iff_not]
  intro hm
  rcases List.mem_cons.1 hm with hm | hm
  · exact absurd hm (by decide)
  rcases mem_of_mem_intercalate hm with hm | ⟨s, hs, hc⟩
  · exact absurd hm (by decide)
  · obtain ⟨name, hn, rfl⟩ := List.mem_map.1 hs
    exact (h name hn).2 hc

theorem hasNul_ofPlace {place : Place} (h : ∀ name ∈ place, isEntryName name = true) :
    (ofPlace place).hasNul = false :=
  hasNul_ofSteps fun name hm => (isEntryName_iff.1 (h name hm)).1

end Path

/-! ## Beginnings -/

theorem Workdir.leave_append {removed : Nat} {names rest : List String}
    (h : leave removed names = .ok (some rest)) :
    rest <:+ names ∧ ∀ more, leave removed (names ++ more) = .ok (some (rest ++ more)) := by
  induction names generalizing removed with
  | nil =>
    cases removed with
    | zero =>
      cases h
      exact ⟨List.suffix_refl _, fun _ => by simp [leave]⟩
    | succ removed => cases h
  | cons name names ih =>
    cases removed with
    | zero =>
      cases h
      exact ⟨List.suffix_refl _, fun _ => by simp [leave]⟩
    | succ removed =>
      have onward : ∀ {n : Nat}, leave n names = .ok (some rest) →
          rest <:+ name :: names ∧ ∀ more, leave n (names ++ more) = .ok (some (rest ++ more)) := by
        intro n hn
        obtain ⟨hsuffix, hmore⟩ := ih hn
        exact ⟨hsuffix.trans (List.suffix_cons _ _), hmore⟩
      simp only [List.cons_append, leave] at h ⊢
      split at h
      · rename_i hdot
        simpa only [if_pos hdot] using onward h
      split at h
      · rename_i hdot hdots
        simpa only [if_neg hdot, if_pos hdots] using onward h
      · cases h

/-- The way out of a removed directory ends with a step up. -/
theorem Workdir.getLast?_of_leave_nil {removed : Nat} {names : List String}
    (h : leave removed names = .ok (some [])) (hne : names ≠ []) : names.getLast? = some ".." := by
  induction names generalizing removed with
  | nil => exact absurd rfl hne
  | cons name names ih =>
    have onward : ∀ {n : Nat}, leave n names = .ok (some []) → (names = [] → name = "..") →
        (name :: names).getLast? = some ".." := by
      intro n hn hlast
      by_cases hnil : names = []
      · rw [hnil, hlast hnil]
        rfl
      · rw [List.getLast?_cons, ih hn hnil]
        rfl
    cases removed with
    | zero => cases h
    | succ removed =>
      simp only [leave] at h
      split at h
      · refine onward h ?_
        rintro rfl
        cases h
      split at h
      · rename_i hdots
        exact onward h fun _ => hdots
      · cases h

namespace Disk

variable {d : Disk} {p q : Path} {last : LastLink} {names rest : List String} {cur : Place}
  {l : Landing}

/-- A look-up along `names` is a walk from `cur` along `rest`, whatever the tree is. -/
def Begins (w : Workdir) (absolute : Bool) (names : List String) (cur : Place)
    (rest : List String) : Prop :=
  if absolute then cur = [] ∧ rest = names
  else cur = w.base ∧ Workdir.leave w.removed names = .ok (some rest)

theorem Begins.append {w : Workdir} {absolute : Bool} (h : Begins w absolute names cur rest)
    (more : List String) : Begins w absolute (names ++ more) cur (rest ++ more) := by
  unfold Begins at h ⊢
  split
  · rename_i habs
    rw [if_pos habs] at h
    exact ⟨h.1, by rw [h.2]⟩
  · rename_i habs
    rw [if_neg habs] at h
    exact ⟨h.1, (Workdir.leave_append h.2).2 more⟩

theorem Begins.suffix {w : Workdir} {absolute : Bool} (h : Begins w absolute names cur rest) :
    rest <:+ names := by
  unfold Begins at h
  split at h
  · exact h.2 ▸ List.suffix_refl _
  · exact (Workdir.leave_append h.2).1

theorem locate_of_begins (hp : p.text ≠ "") (h : Begins d.workdir p.isAbsolute names cur rest)
    (last : LastLink) : d.locate last p names = d.tree.walk last maxLinks cur rest := by
  unfold Begins at h
  unfold locate
  rw [if_neg hp]
  split at h
  · rename_i habs
    rw [if_pos habs, h.1, h.2]
  · rename_i habs
    rw [if_neg habs, h.1]
    simp only [h.2]

/-- A look-up ends in a removed directory, or it is a walk. -/
theorem begins_of_locate (h : d.locate last p names = .ok l) :
    p.text ≠ "" ∧ (l = .removed ∨ ∃ cur rest, Begins d.workdir p.isAbsolute names cur rest ∧
      d.tree.walk last maxLinks cur rest = .ok l) := by
  unfold locate at h
  split at h
  · cases h
  rename_i htext
  refine ⟨htext, ?_⟩
  split at h
  · rename_i habs
    exact .inr ⟨[], names, by simp [Begins, habs], h⟩
  rename_i habs
  split at h
  · rename_i rest hleave
    exact .inr ⟨d.workdir.base, rest, by simp [Begins, habs, hleave], h⟩
  · cases h
    exact .inl rfl
  · cases h

/-- A look-up along the names of a path is a walk along such names. -/
theorem walk_of_land (h : d.land last p names = .ok l) (hl : l ≠ .removed) :
    p.hasNul = false ∧ p.text.utf8ByteSize ≤ maxPathBytes ∧ p.text ≠ "" ∧
      ∃ cur rest, Begins d.workdir p.isAbsolute names cur rest ∧
        d.tree.walk last maxLinks cur rest = .ok l := by
  unfold land at h
  split at h
  · cases h
  rename_i hnul
  split at h
  · cases h
  rename_i hlen
  obtain ⟨htext, hcases⟩ := begins_of_locate h
  exact ⟨by simpa using hnul, Nat.le_of_not_lt hlen, htext, hcases.resolve_left hl⟩

end Disk

namespace FileTree

/-- Names are walked along from a directory only. -/
theorem isDir_of_walk {t : FileTree} {last : LastLink} {links : Nat} {cur : Place}
    {names : List String} {l : Landing} (hne : names ≠ []) (h : t.walk last links cur names = .ok l) :
    t.get? cur = some .dir := by
  obtain ⟨name, rest, rfl⟩ := List.exists_cons_of_ne_nil hne
  by_cases hdir : t.get? cur = some .dir
  · exact hdir
  · unfold walk at h
    rw [advance_cons, if_neg hdir] at h
    cases h

end FileTree

namespace Disk

variable {d : Disk} {p q : Path} {last : LastLink}

/-- A free name that a path leads to is free, and one that a node can have. -/
theorem vacant_fitsIn {dir : Place} {name : String}
    (h : d.land last p p.names = .ok (.vacant dir name)) :
    (Landing.vacant dir name).FitsIn d.tree := by
  obtain ⟨hnul, _, _, cur, rest, hbegins, hw⟩ := walk_of_land h (by simp)
  have hne : rest ≠ [] := by
    rintro rfl
    unfold FileTree.walk at hw
    rw [FileTree.advance_nil] at hw
    cases hw
  refine FileTree.walk_fitsIn (by simp [FileTree.isDir_of_walk hne hw]) ?_ hw
  exact fun n hn => isStepName_of_mem_names hnul (hbegins.suffix.subset hn)

/-- A path that ends in a name of its own is walked along, wherever it begins. -/
theorem Begins.ne_nil {w : Workdir} {absolute : Bool} {cur : Place} {rest : List String}
    (hown : p.endsInOwnName = true) (h : Begins w absolute p.names cur rest) : rest ≠ [] := by
  rintro rfl
  unfold Path.endsInOwnName at hown
  have hne : p.names ≠ [] := by
    intro hnil
    simp [hnil] at hown
  unfold Begins at h
  split at h
  · exact hne h.2.symm
  · simp [Workdir.getLast?_of_leave_nil h.2 hne] at hown

/-- What it leads to is there. -/
theorem node_fitsIn {place : Place} (hown : p.endsInOwnName = true)
    (h : d.land last p p.names = .ok (.node place)) : d.tree.get? place ≠ none := by
  obtain ⟨hnul, _, _, cur, rest, hbegins, hw⟩ := walk_of_land h (by simp)
  have hdir := FileTree.isDir_of_walk (hbegins.ne_nil hown) hw
  exact FileTree.walk_fitsIn (by simp [hdir])
    (fun n hn => isStepName_of_mem_names hnul (hbegins.suffix.subset hn)) hw

/-- And it is no link, if links are followed. -/
theorem not_link_of_land {place : Place} (hown : p.endsInOwnName = true) (hlast : last ≠ .keep)
    (h : d.land last p p.names = .ok (.node place)) (target : Path) :
    d.tree.get? place ≠ some (.link target) := by
  obtain ⟨_, _, _, cur, rest, hbegins, hw⟩ := walk_of_land h (by simp)
  have hdir := FileTree.isDir_of_walk (hbegins.ne_nil hown) hw
  exact (FileTree.leads_of_walk hw).not_link hlast (by simp [hdir]) target

/-! ## Canonical paths -/

theorem hasNul_of_get? (hp : p.IsCanonical) (h : d.tree.get? p.names ≠ none) : p.hasNul = false := by
  rw [hp.eq_ofPlace]
  exact Path.hasNul_ofPlace (FileTree.isEntryName_of_get? h)

theorem names_ne_nil_of_relative (hp : p.isAbsolute = false) (htext : p.text ≠ "") :
    p.names ≠ [] := by
  have hne : p.text.toList ≠ [] := fun he => htext (String.toList_inj.1 he)
  obtain ⟨c, cs, hc⟩ := List.exists_cons_of_ne_nil hne
  have hsep : c ≠ '/' := by
    rintro rfl
    simp [Path.isAbsolute, hc] at hp
  obtain ⟨s, ss, hs⟩ := List.exists_cons_of_ne_nil (Text.stretches_ne_nil '/' cs)
  have hpieces : p.pieces = (c :: s) :: ss := by
    rw [Path.pieces, hc, Text.stretches, if_neg hsep, hs]
  simp [Path.names, hpieces]

theorem steps_ne_nil_of_relative (hp : p.isAbsolute = false) (htext : p.text ≠ "") :
    p.steps ≠ [] := by
  have hne := names_ne_nil_of_relative hp htext
  unfold Path.steps
  split
  · simp
  · exact hne

/-- Where the working directory has not been removed, all that leads anywhere begins in a
directory. -/
theorem Begins.isDir {cur : Place} {rest : List String} (htext : p.text ≠ "")
    (hremoved : p.isAbsolute = false → d.workdir.removed = 0)
    (hbegins : Begins d.workdir p.isAbsolute p.steps cur rest)
    (hw : d.tree.walk last maxLinks cur rest = .ok l) : d.tree.get? cur = some .dir := by
  unfold Begins at hbegins
  split at hbegins
  · rw [hbegins.1, FileTree.get?_root]
  · rename_i habs
    have habs : p.isAbsolute = false := by simpa using habs
    rw [hremoved habs] at hbegins
    obtain rfl : p.steps = rest := by
      have := hbegins.2
      simpa [Workdir.leave] using this
    exact FileTree.isDir_of_walk (steps_ne_nil_of_relative habs htext) hw

/-- The canonical path of anything is that of a place where something stands, no link. -/
theorem canonical_ok (h : d.canonical p = .ok q) : ∃ place, q = .ofPlace place ∧
    d.locate .follow p p.steps = .ok (.node place) ∧ d.tree.get? place ≠ none ∧
    p.hasNul = false ∧ q.text.utf8ByteSize ≤ maxPathBytes ∧
    (p.isAbsolute = false → d.workdir.removed = 0) ∧
    ∀ target, d.tree.get? place ≠ some (.link target) := by
  unfold canonical at h
  split at h
  · cases h
  rename_i hnul
  split at h
  · cases h
  rename_i hremoved
  split at h
  · rename_i place hl
    simp only at h
    split at h
    · cases h
    rename_i hlen
    cases h
    have hnul : p.hasNul = false := by simpa using hnul
    have hremoved : p.isAbsolute = false → d.workdir.removed = 0 := by simpa using hremoved
    obtain ⟨htext, hcases⟩ := begins_of_locate hl
    obtain ⟨cur, rest, hbegins, hw⟩ := hcases.resolve_left (by simp)
    have hdir := Begins.isDir htext hremoved hbegins hw
    have hthere : d.tree.get? place ≠ none := FileTree.walk_fitsIn (by simp [hdir])
      (fun name hn => isStepName_of_mem_steps hnul (hbegins.suffix.subset hn)) hw
    have hnot := (FileTree.leads_of_walk hw).not_link (by simp) (by simp [hdir])
    exact ⟨place, rfl, hl, hthere, hnul, Nat.le_of_not_lt hlen, hremoved, hnot⟩
  · cases h
  · cases h

theorem isCanonical_of_canonical (h : d.canonical p = .ok q) : q.IsCanonical := by
  obtain ⟨place, rfl, _, hget, _⟩ := canonical_ok h
  exact Path.isCanonical_ofPlace (FileTree.isEntryName_of_get? hget)

end Disk

end Datapack
