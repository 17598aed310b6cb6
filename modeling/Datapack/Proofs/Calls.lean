import Datapack.Proofs.Entering

/-
  Datapack.Proofs.Calls — what each call on the disk changes.

  A call with an absolute path works on the one place where its path lands, or fails and
  changes nothing. `Disk.Sets d d' place node` says that `d'` differs from `d` at that
  place alone, where `node` stands in it. There is one such statement for each call, with
  what stood there before (`mkdir_lands`, `ensureFile_lands`, `rmdir_lands`,
  `unlink_lands`).

  On a disk without links that place is the one of the folded names (`mkdir_sets` and so
  on). None of the calls leaves a link.
-/

namespace Datapack

theorem ok_of_toOption {ε α : Type} {x : Except ε α} {a : α} (h : x.toOption = some a) :
    x = .ok a := by
  cases x with
  | error e => cases h
  | ok b =>
    cases h
    rfl

namespace Disk

/-- From `d` to `d'` nothing has changed but what stands at `place`: that is `node` now. -/
def Sets (d d' : Disk) (place : Place) (node : Option Node) : Prop :=
  ∀ q, d'.tree.get? q = if q = place then node else d.tree.get? q

variable {d d' : Disk} {p : Path}

theorem Sets.get? {place : Place} {node : Option Node} (h : d.Sets d' place node) :
    d'.tree.get? place = node := by rw [h place, if_pos rfl]

theorem Sets.get?_of_ne {place q : Place} {node : Option Node} (h : d.Sets d' place node)
    (hq : q ≠ place) : d'.tree.get? q = d.tree.get? q := by rw [h q, if_neg hq]

theorem Sets.trans {d'' : Disk} {place : Place} {a b : Option Node} (h : d.Sets d' place a)
    (h' : d'.Sets d'' place b) : d.Sets d'' place b := by
  intro q
  rw [h' q]
  split
  · rfl
  · exact h.get?_of_ne ‹_›

theorem Sets.linkFree {place : Place} {node : Option Node} (h : d.Sets d' place node)
    (hd : d.tree.LinkFree) (hn : ∀ target, node ≠ some (.link target)) : d'.tree.LinkFree := by
  intro q target hq
  rw [h q] at hq
  split at hq
  · exact hn target hq
  · exact hd q target hq

/-! ## Look-ups -/

/-- From the root a path is walked, if the disk takes its text. -/
theorem land_of_isAbsolute (hp : p.isAbsolute = true) (d : Disk) (last : LastLink)
    (names : List String) : d.land last p names =
      if p.hasNul then .error .nulInPath
      else if maxPathBytes < p.text.utf8ByteSize then .error .nameTooLong
      else d.tree.walk last maxLinks [] names := by
  unfold land locate
  rw [if_neg (Path.text_ne_empty hp), if_pos hp]

theorem land_ok {last : LastLink} {names : List String} {l : Landing} (hp : p.isAbsolute = true)
    (h : d.land last p names = .ok l) : p.hasNul = false ∧
      p.text.utf8ByteSize ≤ maxPathBytes ∧ d.tree.walk last maxLinks [] names = .ok l := by
  rw [land_of_isAbsolute hp] at h
  split at h
  · cases h
  · rename_i hnul
    split at h
    · cases h
    · rename_i hlen
      exact ⟨by simpa using hnul, Nat.le_of_not_lt hlen, h⟩

theorem land_iff {last : LastLink} {names : List String} {l : Landing} (hp : p.isAbsolute = true) :
    d.land last p names = .ok l ↔ p.hasNul = false ∧ p.text.utf8ByteSize ≤ maxPathBytes ∧
      d.tree.Leads last maxLinks [] names l := by
  rw [← FileTree.walk_iff]
  constructor
  · exact land_ok hp
  · rintro ⟨hnul, hlen, hw⟩
    rw [land_of_isAbsolute hp, if_neg (by simp [hnul]), if_neg (Nat.not_lt.2 hlen), hw]

/-- The names of a canonical path are all there is to walk along. -/
theorem steps_of_isCanonical (hp : p.IsCanonical) : p.steps = p.names := by
  unfold Path.steps
  by_cases hne : p.names = []
  · simp [hne]
  · have hend : p.endsInSeparator = false := by
      rw [hp.eq_ofPlace]
      exact Path.endsInSeparator_ofPlace (fun _ => Path.isStretch_of_mem_names) hne
    simp [hend]

/-- What a path leads to. -/
theorem node_iff_steps (hp : p.isAbsolute = true) {last : LastLink} {node : Node} :
    d.node last p = .ok node ↔ p.hasNul = false ∧ p.text.utf8ByteSize ≤ maxPathBytes ∧
      ∃ q, d.tree.Leads last maxLinks [] p.steps (.node q) ∧ d.tree.get? q = some node := by
  unfold Disk.node
  constructor
  · intro h
    split at h
    · rename_i q hl
      obtain ⟨hnul, hlen, hleads⟩ := (land_iff hp).1 hl
      split at h
      · rename_i hn
        cases h
        exact ⟨hnul, hlen, q, hleads, hn⟩
      · cases h
    · cases h
    · rename_i hl
      exact absurd rfl ((land_iff hp).1 hl).2.2.ne_removed
    · cases h
  · rintro ⟨hnul, hlen, q, hleads, hn⟩
    rw [(land_iff hp).2 ⟨hnul, hlen, hleads⟩]
    simp only [hn]

theorem node_iff (hp : p.IsCanonical) {last : LastLink} {node : Node} :
    d.node last p = .ok node ↔ p.hasNul = false ∧ p.text.utf8ByteSize ≤ maxPathBytes ∧
      ∃ q, d.tree.Leads last maxLinks [] p.names (.node q) ∧ d.tree.get? q = some node := by
  rw [node_iff_steps hp.isAbsolute, steps_of_isCanonical hp]

theorem isDir_iff_node : d.isDir p = true ↔ d.node .follow p = .ok .dir := by
  unfold isDir
  split
  · rename_i h
    simp [h]
  · rename_i h
    simpa using h

theorem isFile_iff_node : d.isFile p = true ↔ ∃ bytes, d.node .follow p = .ok (.file bytes) := by
  unfold isFile
  split
  · rename_i bytes h
    simp [h]
  · rename_i h
    simpa using h

/-- A look-up that succeeds is true to the tree. -/
theorem land_fitsIn {last : LastLink} {names : List String} {l : Landing}
    (hp : p.isAbsolute = true) (hn : p.hasNul = false → ∀ name ∈ names, IsStepName name)
    (h : d.land last p names = .ok l) : l.FitsIn d.tree := by
  obtain ⟨hnul, _, hw⟩ := land_ok hp h
  exact FileTree.walk_fitsIn (by simp) (hn hnul) hw

theorem land_names_fitsIn {last : LastLink} {l : Landing} (hp : p.isAbsolute = true)
    (h : d.land last p p.names = .ok l) : l.FitsIn d.tree :=
  land_fitsIn hp (fun hnul _ => isStepName_of_mem_names hnul) h

/-- Without links it is at the fold of the names. -/
theorem land_of_linkFree (hd : d.tree.LinkFree) {last : LastLink} {names : List String}
    {l : Landing} (hp : p.isAbsolute = true)
    (hn : p.hasNul = false → ∀ name ∈ names, IsStepName name)
    (h : d.land last p names = .ok l) : l.FitsIn d.tree ∧ l.place? = some (Path.fold names) :=
  ⟨land_fitsIn hp hn h, FileTree.place?_of_walk hd (land_ok hp h).2.2⟩

theorem land_names (hd : d.tree.LinkFree) {last : LastLink} {l : Landing} (hp : p.isAbsolute = true)
    (h : d.land last p p.names = .ok l) :
    l.FitsIn d.tree ∧ l.place? = some (Path.fold p.names) :=
  land_of_linkFree hd hp (fun hnul _ => isStepName_of_mem_names hnul) h

theorem fold_steps (p : Path) : Path.fold p.steps = Path.fold p.names := by
  unfold Path.steps
  split
  · simp [Path.fold, Path.foldName]
  · rfl

theorem land_steps (hd : d.tree.LinkFree) {last : LastLink} {l : Landing} (hp : p.isAbsolute = true)
    (h : d.land last p p.steps = .ok l) :
    l.FitsIn d.tree ∧ l.place? = some (Path.fold p.names) := by
  rw [← fold_steps]
  exact land_of_linkFree hd hp (fun hnul _ => isStepName_of_mem_steps hnul) h

theorem eq_fold_of_land_names (hd : d.tree.LinkFree) {last : LastLink} {place : Place}
    (hp : p.isAbsolute = true) (h : d.land last p p.names = .ok (.node place)) :
    place = Path.fold p.names := Option.some.inj (land_names hd hp h).2

theorem eq_fold_of_land_steps (hd : d.tree.LinkFree) {last : LastLink} {place : Place}
    (hp : p.isAbsolute = true) (h : d.land last p p.steps = .ok (.node place)) :
    place = Path.fold p.names := Option.some.inj (land_steps hd hp h).2

/-- What stands where a path leads, if it leads anywhere. -/
theorem node_of_linkFree (hd : d.tree.LinkFree) (hp : p.isAbsolute = true) {last : LastLink}
    {node : Node} (h : d.node last p = .ok node) : d.tree.get? (Path.fold p.names) = some node := by
  unfold Disk.node at h
  split at h
  · rename_i place hl
    have hplace := (land_steps hd hp hl).2
    cases hplace
    split at h
    · rename_i hn; cases h; exact hn
    · cases h
  · cases h
  · rename_i hl
    have hplace := (land_steps hd hp hl).2
    cases hplace
  · cases h

theorem find_of_linkFree (hd : d.tree.LinkFree) (hp : p.isAbsolute = true) {place : Place}
    (h : d.find p = .ok place) : place = Path.fold p.names := by
  unfold find at h
  split at h
  · rename_i hl
    cases h
    exact eq_fold_of_land_steps hd hp hl
  · cases h
  · cases h

/-! ## Calls that make something -/

/-- A free name takes a file or a directory. -/
theorem sets_add {dir : Place} {name : String} (h : (Landing.vacant dir name).FitsIn d.tree)
    {node : Node} (hn : node.isStorable = true) :
    d.Sets { d with tree := d.tree.add dir name node } (dir ++ [name]) (some node) := by
  obtain ⟨hdir, hnone, hname⟩ := h
  refine FileTree.get?_add ?_
  simp [FileTree.admits, FileTree.isDir, hdir, hnone, hname, hn]

theorem mkdir_lands (h : d.mkdir p = .ok d') :
    ∃ dir name, d.land .keep p p.names = .ok (.vacant dir name) ∧
      d.tree.get? (dir ++ [name]) = none ∧ d.Sets d' (dir ++ [name]) (some .dir) := by
  unfold mkdir at h
  split at h
  · cases h
  · rename_i dir name hl
    cases h
    have hfits := vacant_fitsIn hl
    exact ⟨dir, name, hl, hfits.2.1, sets_add hfits rfl⟩
  · cases h

theorem mkdir_sets (hd : d.tree.LinkFree) (hp : p.isAbsolute = true) (h : d.mkdir p = .ok d') :
    d.tree.get? (Path.fold p.names) = none ∧ d.Sets d' (Path.fold p.names) (some .dir) := by
  obtain ⟨dir, name, hl, hvacant, hset⟩ := mkdir_lands h
  have hplace := Option.some.inj (land_names hd hp hl).2
  rw [← hplace]
  exact ⟨hvacant, hset⟩

/-- A path that is opened for writing leads to a file, or to a free name where an empty
one stands from then on. -/
theorem ensureFile_lands {place : Place} (h : d.ensureFile p = .ok (d', place)) :
    (d.land .write p p.names = .ok (.node place) ∧ d' = d ∧
      ∃ bytes, d.tree.get? place = some (.file bytes)) ∨
    ∃ dir name, d.land .write p p.names = .ok (.vacant dir name) ∧ place = dir ++ [name] ∧
      d.tree.get? place = none ∧ d.Sets d' place (some (.file .empty)) := by
  unfold ensureFile at h
  split at h
  · rename_i hown
    have hown : p.endsInOwnName = true := by simpa using (Bool.and_eq_true_iff.1 hown).1
    split at h
    · cases h
    · rename_i dir name hl
      cases h
      have hfits := vacant_fitsIn hl
      exact .inr ⟨dir, name, hl, rfl, hfits.2.1, sets_add hfits rfl⟩
    · rename_i hl
      split at h
      · cases h
      · rename_i hdir
        cases h
        refine .inl ⟨hl, rfl, ?_⟩
        obtain ⟨node, hnode⟩ := Option.ne_none_iff_exists'.1 (node_fitsIn hown hl)
        cases node with
        | dir => exact absurd (by simp [FileTree.isDir, hnode]) hdir
        | link target => exact absurd hnode (not_link_of_land hown (by simp) hl target)
        | file bytes => exact ⟨bytes, hnode⟩
    · cases h
  · split at h <;> cases h

/-- After a file is provided it is the same disk, or a new empty file stands there. -/
theorem ensureFile_sets (hd : d.tree.LinkFree) (hp : p.isAbsolute = true) {place : Place}
    (h : d.ensureFile p = .ok (d', place)) : place = Path.fold p.names ∧
      ((d' = d ∧ ∃ bytes, d.tree.get? place = some (.file bytes)) ∨
        (d.tree.get? place = none ∧ d.Sets d' place (some (.file .empty)))) := by
  rcases ensureFile_lands h with ⟨hl, rfl, hfile⟩ | ⟨dir, name, hl, rfl, hvacant, hset⟩
  · exact ⟨Option.some.inj (land_names hd hp hl).2, .inl ⟨rfl, hfile⟩⟩
  · exact ⟨Option.some.inj (land_names hd hp hl).2, .inr ⟨hvacant, hset⟩⟩

/-- The content of a file that is there can be replaced. -/
theorem setContent_sets {place : Place} {old bytes : ByteArray}
    (h : d.tree.get? place = some (.file old)) :
    d.Sets (d.setContent place bytes) place (some (.file bytes)) := by
  have hne : place ≠ [] := by
    rintro rfl
    simp at h
  obtain ⟨dir, name, hl⟩ := (List.eq_nil_or_concat place).resolve_left hne
  rw [List.concat_eq_append] at hl
  subst hl
  have hname := FileTree.isEntryName_of_get? (by rw [h]; simp) name (by simp)
  unfold setContent FileTree.put
  rw [List.getLast?_concat, List.dropLast_concat]
  refine FileTree.get?_add ?_
  simp [FileTree.admits, FileTree.isDir, FileTree.get?_of_child h, h, hname, Node.isStorable]

theorem store_sets (hd : d.tree.LinkFree) (hp : p.isAbsolute = true) {bytes : ByteArray}
    (h : d.store p bytes = .ok d') : d.Sets d' (Path.fold p.names) (some (.file bytes)) := by
  unfold store at h
  split at h
  · cases h
  · rename_i e place he
    cases h
    obtain ⟨rfl, ⟨rfl, old, hold⟩ | ⟨_, hset⟩⟩ := ensureFile_sets hd hp he
    · exact setContent_sets hold
    · exact hset.trans (setContent_sets hset.get?)

theorem append_sets (hd : d.tree.LinkFree) (hp : p.isAbsolute = true) {bytes : ByteArray}
    (h : d.append p bytes = .ok d') : ∃ old, d.tree.get? (Path.fold p.names) = some (.file old) ∧
      d.Sets d' (Path.fold p.names) (some (.file (old ++ bytes))) := by
  unfold append at h
  split at h
  · cases h
  · rename_i place hf
    have := find_of_linkFree hd hp hf
    subst this
    split at h
    · rename_i old hold
      cases h
      exact ⟨old, hold, setContent_sets hold⟩
    · cases h

/-! ## Calls that take something away -/

theorem drop_sets {place : Place} (hne : place ≠ []) (h : d.tree.names place = []) (w : Workdir) :
    d.Sets ⟨d.tree.drop place, w⟩ place none := by
  obtain ⟨dir, name, hl⟩ := (List.eq_nil_or_concat place).resolve_left hne
  rw [List.concat_eq_append] at hl
  subst hl
  unfold FileTree.drop
  rw [List.getLast?_concat, List.dropLast_concat]
  exact FileTree.get?_remove h

/-- Nothing stands in what is no directory. -/
theorem names_of_not_isDir {place : Place} (h : d.tree.isDir place = false) :
    d.tree.names place = [] := by
  refine List.eq_nil_iff_forall_not_mem.2 fun name hm => ?_
  obtain ⟨node, hn⟩ := Option.isSome_iff_exists.1 (FileTree.mem_names.1 hm)
  simp [FileTree.isDir, FileTree.get?_of_child hn] at h

theorem rmdir_lands (hp : p.isAbsolute = true) (h : d.rmdir p = .ok d') :
    ∃ place, d.land .keep p p.names = .ok (.node place) ∧ d.tree.get? place = some .dir ∧
      d.tree.names place = [] ∧ d.Sets d' place none := by
  unfold rmdir at h
  split at h
  · cases h
  · cases h
  · cases h
  · cases h
  · rename_i place name hdot hdots hl hlast
    split at h
    · rename_i hdir
      split at h
      · rename_i hnames
        cases h
        have hleads := FileTree.leads_of_walk (land_ok hp hl).2.2
        have hne := hleads.ne_nil hlast (by simpa using hdot) (by simpa using hdots)
        exact ⟨place, hl, by simpa [FileTree.isDir] using hdir, hnames, drop_sets hne hnames _⟩
      · cases h
    · cases h
  · cases h

theorem rmdir_sets (hd : d.tree.LinkFree) (hp : p.isAbsolute = true) (h : d.rmdir p = .ok d') :
    d.tree.get? (Path.fold p.names) = some .dir ∧ d.tree.names (Path.fold p.names) = [] ∧
      d.Sets d' (Path.fold p.names) none := by
  obtain ⟨place, hl, hrest⟩ := rmdir_lands hp h
  rw [← eq_fold_of_land_names hd hp hl]
  exact hrest

theorem unlink_lands (hp : p.isAbsolute = true) (h : d.unlink p = .ok d') :
    ∃ place, d.land .keep p p.names = .ok (.node place) ∧ d.tree.get? place ≠ none ∧
      d.tree.isDir place = false ∧ d.Sets d' place none := by
  unfold unlink at h
  split at h
  · cases h
  · rename_i l hl
    split at h
    · split at h
      · rename_i place
        split at h
        · cases h
        · rename_i hdir
          split at h
          · cases h
          · cases h
            have hdir : d.tree.isDir place = false := by simpa using hdir
            have hne : place ≠ [] := by
              rintro rfl
              simp [FileTree.isDir] at hdir
            exact ⟨place, hl, land_names_fitsIn hp hl, hdir,
              drop_sets hne (names_of_not_isDir hdir) _⟩
      · cases h
    · cases h

theorem unlink_sets (hd : d.tree.LinkFree) (hp : p.isAbsolute = true) (h : d.unlink p = .ok d') :
    (∃ bytes, d.tree.get? (Path.fold p.names) = some (.file bytes)) ∧
      d.Sets d' (Path.fold p.names) none := by
  obtain ⟨place, hl, hsome, hdir, hset⟩ := unlink_lands hp h
  obtain rfl := eq_fold_of_land_names hd hp hl
  refine ⟨?_, hset⟩
  obtain ⟨node, hnode⟩ := Option.ne_none_iff_exists'.1 hsome
  cases node with
  | dir => simp [FileTree.isDir, hnode] at hdir
  | link target => exact absurd hnode (hd _ target)
  | file bytes => exact ⟨bytes, hnode⟩

theorem unlink_of_deleteFile (h : d.deleteFile p = .ok (some d')) : d.unlink p = .ok d' := by
  unfold deleteFile at h
  split at h
  · cases hu : d.unlink p with
    | error f =>
      rw [hu] at h
      cases h
    | ok e =>
      rw [hu] at h
      cases h
      rfl
  · cases h

theorem deleteFile_sets (hd : d.tree.LinkFree) (hp : p.isAbsolute = true)
    (h : d.deleteFile p = .ok (some d')) :
    (∃ bytes, d.tree.get? (Path.fold p.names) = some (.file bytes)) ∧
      d.Sets d' (Path.fold p.names) none :=
  unlink_sets hd hp (unlink_of_deleteFile h)

end Disk

end Datapack
