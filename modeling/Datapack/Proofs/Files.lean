import Datapack.Proofs.Sequences

/-
  Datapack.Proofs.Files — the files of a disk, and the calls that add to them.

  `FileTree.file?` is the content of the file at a place, if one stands there. By it the
  calls that take nothing away are told apart on a disk without links:
  - making directories changes no file, however far it gets (`SameFiles.makeDirs`);
  - `append` adds to one file, and providing a file adds nothing to it, or brings it
    about empty; every other file stays as it was (`Disk.Gains`);
  - a failed attempt to provide a file brings none about (`provide_failed`).

  A canonical path leads to a file just if one stands at its place and the disk takes
  paths like it (`isFile_iff`). What is a file once is so after all of these calls.
-/

namespace Datapack

/-! ## Files by place -/

def Node.bytes? : Node → Option ByteArray
  | file bytes => some bytes
  | _ => none

namespace FileTree

def file? (t : FileTree) (place : Place) : Option ByteArray := (t.get? place).bind Node.bytes?

/-- The content of the file at a place, with none taken for an empty one. -/
def contentAt (t : FileTree) (place : Place) : ByteArray := (t.file? place).getD .empty

variable {t : FileTree} {place : Place} {bytes : ByteArray}

theorem file?_eq_some_iff : t.file? place = some bytes ↔ t.get? place = some (.file bytes) := by
  simp only [file?, Option.bind_eq_some_iff]
  constructor
  · rintro ⟨node, hn, hb⟩
    cases node with
    | file b => cases hb; exact hn
    | dir | link => cases hb
  · intro h
    exact ⟨.file bytes, h, rfl⟩

end FileTree

namespace Disk

variable {d d' : Disk} {p : Path}

theorem Sets.file? {place : Place} {node : Option Node} (h : d.Sets d' place node) (q : Place) :
    d'.tree.file? q = if q = place then node.bind Node.bytes? else d.tree.file? q := by
  unfold FileTree.file?
  rw [h q]
  split <;> rfl

/-! ## Files that can be written to -/

theorem fits_of_ensureFile {r : Disk × Place} (hp : p.isAbsolute = true)
    (h : d.ensureFile p = .ok r) : p.hasNul = false ∧ p.text.utf8ByteSize ≤ maxPathBytes := by
  unfold ensureFile at h
  split at h
  · cases hl : d.land .write p p.names with
    | error f => rw [hl] at h; cases h
    | ok l => exact ⟨(land_ok hp hl).1, (land_ok hp hl).2.1⟩
  · split at h <;> cases h

/-- A canonical path leads to a file if one stands there and the disk takes the path. -/
theorem isFile_iff (hd : d.tree.LinkFree) (hp : p.IsCanonical) : d.isFile p = true ↔
    p.hasNul = false ∧ p.text.utf8ByteSize ≤ maxPathBytes ∧ ∃ bytes, d.tree.file? p.names = some bytes := by
  rw [isFile_iff_node]
  constructor
  · rintro ⟨bytes, hn⟩
    have hget := node_of_linkFree hd hp.isAbsolute hn
    rw [hp.fold_names] at hget
    obtain ⟨hnul, hlen, _⟩ := (node_iff hp).1 hn
    exact ⟨hnul, hlen, bytes, FileTree.file?_eq_some_iff.2 hget⟩
  · rintro ⟨hnul, hlen, bytes, hfile⟩
    have hget := FileTree.file?_eq_some_iff.1 hfile
    have hwalk := FileTree.walk_of_get? hd .follow maxLinks hp.clean (by rw [hget]; simp)
    exact ⟨bytes, (node_iff hp).2 ⟨hnul, hlen, p.names, FileTree.leads_of_walk hwalk, hget⟩⟩

/-- Whatever is a file takes more text. -/
theorem append_of_isFile (h : d.isFile p = true) (bytes : ByteArray) :
    ∃ d', d.append p bytes = .ok d' := by
  unfold isFile at h
  split at h
  · rename_i old hn
    unfold node at hn
    split at hn
    · rename_i place hl
      split at hn
      · rename_i hget
        cases hn
        refine ⟨d.setContent place (old ++ bytes), ?_⟩
        unfold append find
        simp only [hl, hget]
      · cases hn
    · cases hn
    · cases hn
    · cases hn
  · cases h

/-! ## Directories only -/

/-- The disk has the files of the tree `t`, and no link stands in it. -/
structure SameFiles (t : FileTree) (d : Disk) : Prop where
  linkFree : d.tree.LinkFree
  files : ∀ q, d.tree.file? q = t.file? q

namespace SameFiles

variable {t : FileTree}

theorem refl (hd : d.tree.LinkFree) : d.SameFiles d.tree := ⟨hd, fun _ => rfl⟩

/-- A directory takes a free place, where no file stood. -/
theorem mkdir (hd : d.SameFiles t) (hp : p.isAbsolute = true) (h : d.mkdir p = .ok d') :
    d'.SameFiles t := by
  obtain ⟨hvacant, hset⟩ := mkdir_sets hd.linkFree hp h
  refine ⟨hset.linkFree hd.linkFree (by simp), ?_⟩
  intro q
  rw [hset.file? q, ← hd.files q]
  split
  · rename_i hq
    rw [hq, FileTree.file?, hvacant]
    rfl
  · rfl

theorem makeDirs (hd : d.SameFiles t) (hp : p.isAbsolute = true) :
    (d.makeDirs p).1.SameFiles t :=
  makeDirs_keeps hp (fun _ _ _ hq _ hd hm => hd.mkdir hq hm) hd

theorem makeParents (hd : d.SameFiles t) (hp : p.isAbsolute = true) :
    (OutputStack.makeParents d p).1.SameFiles t :=
  makeParents_keeps hp (fun _ _ _ hq _ hd hm => hd.mkdir hq hm) hd

end SameFiles

/-! ## One file -/

/-- The disk has the files of the tree `t`, but the one at `place` has `bytes` added to it,
and no link stands in it. -/
structure Gains (t : FileTree) (place : Place) (bytes : ByteArray) (d : Disk) : Prop where
  linkFree : d.tree.LinkFree
  files : ∀ q, d.tree.file? q = if q = place then some (t.contentAt place ++ bytes) else t.file? q

namespace Gains

variable {t : FileTree} {place : Place} {bytes : ByteArray}

theorem contentAt (h : d.Gains t place bytes) (q : Place) :
    d.tree.contentAt q = t.contentAt q ++ if q = place then bytes else .empty := by
  rw [FileTree.contentAt, h.files q]
  split
  · rename_i hq
    rw [hq]
    rfl
  · rw [ByteArray.append_empty]
    rfl

end Gains

/-- What is a file stays one. -/
theorem isFile_of_files (hd : d.tree.LinkFree) (hd' : d'.tree.LinkFree)
    (h : ∀ q bytes, d.tree.file? q = some bytes → ∃ bytes', d'.tree.file? q = some bytes')
    (hp : p.IsCanonical) (hf : d.isFile p = true) : d'.isFile p = true := by
  obtain ⟨hnul, hlen, bytes, hfile⟩ := (isFile_iff hd hp).1 hf
  exact (isFile_iff hd' hp).2 ⟨hnul, hlen, h p.names bytes hfile⟩

theorem SameFiles.isFile (hd : d.tree.LinkFree) (h : d'.SameFiles d.tree) (hp : p.IsCanonical)
    (hf : d.isFile p = true) : d'.isFile p = true := by
  refine isFile_of_files hd h.linkFree ?_ hp hf
  intro q bytes hq
  exact ⟨bytes, by rw [h.files q, hq]⟩

theorem Gains.isFile {place : Place} {bytes : ByteArray} (hd : d.tree.LinkFree)
    (h : d'.Gains d.tree place bytes) (hp : p.IsCanonical) (hf : d.isFile p = true) :
    d'.isFile p = true := by
  refine isFile_of_files hd h.linkFree ?_ hp hf
  intro q old hq
  rw [h.files q]
  split
  · exact ⟨_, rfl⟩
  · exact ⟨old, hq⟩

theorem gains_self (hd : d.tree.LinkFree) {place : Place} {bytes : ByteArray}
    (h : d.tree.file? place = some bytes) : d.Gains d.tree place .empty := by
  refine ⟨hd, ?_⟩
  intro q
  split
  · rename_i hq
    rw [hq, FileTree.contentAt, h, ByteArray.append_empty]
    rfl
  · rfl

theorem append_gains (hd : d.tree.LinkFree) (hp : p.IsCanonical) {bytes : ByteArray}
    (h : d.append p bytes = .ok d') : d'.Gains d.tree p.names bytes := by
  obtain ⟨old, hold, hset⟩ := append_sets hd hp.isAbsolute h
  rw [hp.fold_names] at hold hset
  refine ⟨hset.linkFree hd (by simp), ?_⟩
  intro q
  have hcontent : d.tree.contentAt p.names = old := by
    rw [FileTree.contentAt, FileTree.file?_eq_some_iff.2 hold]
    rfl
  rw [hset.file? q, hcontent]
  rfl

/-- The file is there, as it was or empty. -/
theorem ensureFile_gains (hd : d.tree.LinkFree) (hp : p.IsCanonical) {place : Place}
    (h : d.ensureFile p = .ok (d', place)) : d'.Gains d.tree p.names .empty := by
  obtain ⟨hplace, hcases⟩ := ensureFile_sets hd hp.isAbsolute h
  rw [hp.fold_names] at hplace
  subst hplace
  rcases hcases with ⟨rfl, bytes, hfile⟩ | ⟨hvacant, hset⟩
  · exact gains_self hd (FileTree.file?_eq_some_iff.2 hfile)
  · refine ⟨hset.linkFree hd (by simp), ?_⟩
    intro q
    have hcontent : d.tree.contentAt p.names = .empty := by
      rw [FileTree.contentAt, FileTree.file?, hvacant]
      rfl
    rw [hset.file? q, hcontent, ByteArray.append_empty]
    rfl

/-! ## Providing a file -/

/-- When a file could not be provided, at most directories have been made. -/
theorem provide_failed (hd : d.tree.LinkFree) (hp : p.IsCanonical) {f : Fault}
    (h : (OutputStack.provide d p).2 = .error f) :
    (OutputStack.provide d p).1.SameFiles d.tree := by
  rcases provide_cases d p with ⟨_, he⟩ | ⟨_, he⟩ | ⟨_, _, _, he⟩
  · rw [he] at h; cases h
  · rw [he]
    exact (SameFiles.refl hd).makeParents hp.isAbsolute
  · rw [he] at h; cases h

theorem provide_done (hd : d.tree.LinkFree) (hp : p.IsCanonical)
    (h : (OutputStack.provide d p).2 = .ok ()) :
    (OutputStack.provide d p).1.Gains d.tree p.names .empty ∧
      (OutputStack.provide d p).1.isFile p = true := by
  rcases provide_cases d p with ⟨hf, he⟩ | ⟨_, he⟩ | ⟨d', place, hfile, he⟩
  · rw [he]
    obtain ⟨_, _, bytes, hbytes⟩ := (isFile_iff hd hp).1 hf
    exact ⟨gains_self hd hbytes, hf⟩
  · rw [he] at h; cases h
  · rw [he]
    have hmade := (SameFiles.refl hd).makeParents hp.isAbsolute
    have hgain := ensureFile_gains hmade.linkFree hp hfile
    obtain ⟨hnul, hlen⟩ := fits_of_ensureFile hp.isAbsolute hfile
    have hgains : d'.Gains d.tree p.names .empty := by
      refine ⟨hgain.linkFree, ?_⟩
      intro q
      rw [hgain.files q, FileTree.contentAt, FileTree.contentAt, hmade.files, hmade.files]
    have hthere := hgains.files p.names
    rw [if_pos rfl] at hthere
    exact ⟨hgains, (isFile_iff hgains.linkFree hp).2 ⟨hnul, hlen, _, hthere⟩⟩

end Disk

end Datapack
