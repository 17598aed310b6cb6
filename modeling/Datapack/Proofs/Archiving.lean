import Datapack.Archive.Package
import Datapack.Proofs.Creating
import Datapack.Proofs.Encoding
import Datapack.Proofs.Inventory
import Mathlib.Data.List.Forall2

/-
  Datapack.Proofs.Archiving — an archive is the tree below its directory.

  A packing that succeeds has created the archive, and nothing else but missing directories
  above it (`Disk.Creates`). What is then below the directory is archived, all of it but
  what leads to the archive itself (`Lists`), in the order of the octets of the names. So a
  directory comes right before its own contents (`prefix_of_between`). There is one member
  for each node (`Archives`, `Lists.archives`), and no two have the same name, since each
  name tells the names from the directory down (`names_member`).

  The archive is known again by its canonical path. Where it has none it is taken for any
  other file, and goes into itself (`package_holds_itself`).

  A file is read by a path, the directory with those names behind it. That leads on from
  where the directory is, so to that very file, however the directory is reached
  (`find_entryPath`).
-/

namespace Datapack

/-! ## Order -/

/-- Between a list and a longer one there are only lists that go on from it as well. -/
theorem prefix_of_between {a b more : List String} (ha : a < b) (hb : b < a ++ more) : a <+: b := by
  induction a generalizing b with
  | nil => exact List.nil_prefix
  | cons x a ih =>
    cases b with
    | nil => exact absurd ha (List.not_lt_nil _)
    | cons y b =>
      rw [List.cons_append] at hb
      rcases List.cons_lt_cons_iff.1 ha with hxy | ⟨hxy, hab⟩
      · rcases List.cons_lt_cons_iff.1 hb with hyx | ⟨hyx, _⟩
        · exact absurd (String.lt_trans hxy hyx) (String.lt_irrefl _)
        · exact absurd (hyx ▸ hxy) (String.lt_irrefl _)
      · rcases List.cons_lt_cons_iff.1 hb with hyx | ⟨_, hba⟩
        · exact absurd (hxy ▸ hyx) (String.lt_irrefl _)
        · exact List.cons_prefix_cons.2 ⟨hxy, ih hab hba⟩

namespace Archive

variable {ε : Type} {w : Zip.Writer ε} {d d' : Disk} {dir archive : Path} {top rel : Place}
  {node : Node}

/-! ## The names of members -/

section

variable (hrel : ∀ name ∈ rel, Path.IsStretch name)

include hrel

theorem names_memberName : (⟨memberName rel⟩ : Path).names = rel := by
  have hnames := Path.names_ofNames hrel false
  simpa [Path.ofNames, memberName] using hnames

theorem isAbsolute_memberName : (⟨memberName rel⟩ : Path).isAbsolute = false := by
  have habs := Path.isAbsolute_ofNames hrel false
  simpa [Path.ofNames, memberName] using habs

/-- It ends as its last name does. -/
theorem getLast?_memberName (hne : rel ≠ []) :
    ∃ name ∈ rel, ∃ c ∈ name.toList, (memberName rel).toList.getLast? = some c := by
  obtain ⟨init, last, rfl⟩ := (List.eq_nil_or_concat rel).resolve_left hne
  rw [List.concat_eq_append] at hrel ⊢
  have hlast : last.toList ≠ [] := fun he => (hrel last (by simp)).1 (String.toList_inj.1 he)
  have htext : ∃ front, (memberName (init ++ [last])).toList = front ++ last.toList := by
    unfold memberName
    by_cases hinit : init = []
    · exact ⟨[], by simp [hinit]⟩
    · refine ⟨("/".intercalate init).toList ++ ['/'], ?_⟩
      rw [String.intercalate_append_of_ne_nil hinit (by simp), String.intercalate_singleton]
      simp
  obtain ⟨front, hfront⟩ := htext
  refine ⟨last, by simp, last.toList.getLast hlast, List.getLast_mem hlast, ?_⟩
  rw [hfront, List.getLast?_append_of_ne_nil _ hlast, List.getLast?_eq_some_getLast hlast]

/-- A directory has a separator behind its name. -/
theorem directoryName_memberName (hne : rel ≠ []) (hplain : ∀ name ∈ rel, '\\' ∉ name.toList) :
    directoryName (memberName rel) = memberName rel ++ "/" := by
  obtain ⟨name, hm, c, hc, hlast⟩ := getLast?_memberName hrel hne
  have hslash : c ≠ '/' := by
    rintro rfl
    exact (hrel name hm).2 hc
  have hback : c ≠ '\\' := by
    rintro rfl
    exact hplain name hm hc
  unfold directoryName
  rw [hlast]
  split
  · rename_i heq
    exact absurd (Option.some.inj heq) hslash
  · rename_i heq
    exact absurd (Option.some.inj heq) hback
  · rfl

theorem names_directory : (⟨memberName rel ++ "/"⟩ : Path).names = rel := by
  have hsplit : memberName rel ++ "/" = String.ofList ((memberName rel).toList ++ '/' :: []) := by
    simp
  rw [hsplit, Path.names_separated, String.ofList_toList, names_memberName hrel]
  exact List.append_nil rel

/-! ## Reading by a path from the directory -/

theorem names_entryPath : (entryPath dir rel).names = dir.names ++ rel := by
  rw [entryPath, Path.child, Path.names_join (isAbsolute_memberName hrel), names_memberName hrel]

theorem isAbsolute_entryPath : (entryPath dir rel).isAbsolute = dir.isAbsolute := by
  rw [entryPath, Path.child, Path.isAbsolute_join, isAbsolute_memberName hrel, Bool.or_false]

theorem text_entryPath (dir : Path) : ∃ between, (between = "" ∨ between = "/") ∧
    (entryPath dir rel).text = dir.text ++ between ++ memberName rel := by
  unfold entryPath Path.child Path.join
  rw [isAbsolute_memberName hrel, if_neg (by simp)]
  split
  · exact ⟨"", .inl rfl, by rw [String.append_empty]⟩
  · exact ⟨"/", .inr rfl, rfl⟩

theorem steps_entryPath (hne : rel ≠ []) : (entryPath dir rel).steps = dir.names ++ rel := by
  obtain ⟨between, _, htext⟩ := text_entryPath hrel dir
  obtain ⟨name, hm, c, hc, hlast⟩ := getLast?_memberName hrel hne
  have hend : (entryPath dir rel).endsInSeparator = false := by
    rw [Path.endsInSeparator, htext, String.toList_append, List.getLast?_append, hlast,
      Option.some_or, beq_eq_false_iff_ne]
    rintro heq
    cases heq
    exact (hrel name hm).2 hc
  rw [Path.steps, hend, names_entryPath hrel]
  simp

end

theorem hasNul_entryPath (hdir : dir.hasNul = false) (hrel : ∀ name ∈ rel, isEntryName name = true) :
    (entryPath dir rel).hasNul = false := by
  have hstretch : ∀ name ∈ rel, Path.IsStretch name := fun name hm =>
    isStretch_of_isEntryName (hrel name hm)
  have hmember : '\x00' ∉ (memberName rel).toList := by
    unfold memberName
    rw [String.toList_intercalate]
    intro hm
    rcases Path.mem_of_mem_intercalate hm with hsep | ⟨s, hs, hc⟩
    · exact absurd hsep (by decide)
    · obtain ⟨name, hn, rfl⟩ := List.mem_map.1 hs
      exact (isEntryName_iff.1 (hrel name hn)).1.2 hc
  obtain ⟨between, hbetween, htext⟩ := text_entryPath hstretch dir
  have hsep : '\x00' ∉ between.toList := by
    rcases hbetween with rfl | rfl
    · decide
    · decide
  unfold Path.hasNul at hdir ⊢
  rw [htext, String.toList_append, String.toList_append]
  simp only [List.contains_eq_mem, decide_eq_false_iff_not] at hdir ⊢
  simp [hdir, hsep, hmember]

/-- The path of a node below the directory is walked along from where the directory is. -/
theorem walk_entryPath (hdir : d.find dir = .ok top) (hget : d.tree.get? (top ++ rel) = some node)
    (hne : rel ≠ []) : ∃ left, d.locate .follow (entryPath dir rel) (entryPath dir rel).steps =
      d.tree.walk .follow left top rel := by
  have hstretch : ∀ name ∈ rel, Path.IsStretch name := fun name hm =>
    isStretch_of_isEntryName (FileTree.isEntryName_of_below hget name hm)
  obtain ⟨_, _, htop⟩ := Disk.land_iff_locate.1 (Disk.find_iff.1 hdir)
  have htext : (entryPath dir rel).text ≠ "" := by
    obtain ⟨between, _, htext⟩ := text_entryPath hstretch dir
    simp [htext, (Disk.begins_of_locate htop).1]
  obtain ⟨left, hleft⟩ := Disk.locate_continue htop (isAbsolute_entryPath hstretch) hne htext
  rw [steps_entryPath hstretch hne]
  exact ⟨left, hleft .follow⟩

/-- It leads to that node, unless it is a link. -/
theorem locate_entryPath (hdir : d.find dir = .ok top) (hget : d.tree.get? (top ++ rel) = some node)
    (hnode : ∀ target, node ≠ .link target) (hne : rel ≠ []) :
    d.locate .follow (entryPath dir rel) (entryPath dir rel).steps = .ok (.node (top ++ rel)) := by
  have hentry := FileTree.isEntryName_of_below hget
  have hclean : Path.Clean rel := fun name hm =>
    ⟨(isEntryName_iff.1 (hentry name hm)).2.1, (isEntryName_iff.1 (hentry name hm)).2.2.1⟩
  obtain ⟨left, hleft⟩ := walk_entryPath hdir hget hne
  rw [hleft, (FileTree.Leads.here (FileTree.advance_to .follow hclean hget hnode)).walk]

/-- So it leads to no other. -/
theorem find_entryPath {place : Place} (hdir : d.find dir = .ok top)
    (hget : d.tree.get? (top ++ rel) = some node) (hnode : ∀ target, node ≠ .link target)
    (hne : rel ≠ []) (hf : d.find (entryPath dir rel) = .ok place) : place = top ++ rel := by
  obtain ⟨_, _, hlocate⟩ := Disk.land_iff_locate.1 (Disk.find_iff.1 hf)
  rw [locate_entryPath hdir hget hnode hne] at hlocate
  cases hlocate
  rfl

theorem read_iff {p : Path} {bytes : ByteArray} : d.read p = .ok bytes ↔
    ∃ place, d.find p = .ok place ∧ d.tree.get? place = some (.file bytes) := by
  unfold Disk.read Disk.node Disk.find
  cases d.land .follow p p.steps with
  | error f => simp
  | ok l =>
    cases l with
    | vacant | removed => simp
    | node place =>
      cases hget : d.tree.get? place with
      | none => simp [hget]
      | some node => cases node <;> simp [hget]

/-! ## Members -/

/-- The member for the node at `rel` below `dir`: that of a directory has a separator behind
its name, that of a file the bytes of the file, and that of a link the bytes of the file
that the link leads to. -/
inductive Archives (d : Disk) (dir : Path) (rel : Place) : Node → Member → Prop
  | dir : Archives d dir rel .dir ⟨memberName rel ++ "/", .empty, false⟩
  | file (bytes : ByteArray) : Archives d dir rel (.file bytes) ⟨memberName rel, bytes, true⟩
  | link {target : Path} {place : Place} {bytes : ByteArray} :
      d.find (entryPath dir rel) = .ok place → d.tree.get? place = some (.file bytes) →
      Archives d dir rel (.link target) ⟨memberName rel, bytes, true⟩

/-- What is no directory is read by its path. -/
theorem memberOf_of_ne_dir (hnode : node ≠ .dir) :
    (memberOf d dir rel node : Except (PackFailure ε) Member) =
      match d.read (entryPath dir rel) with
      | .ok bytes => .ok ⟨memberName rel, bytes, true⟩
      | .error f => .error (.readEntry (entryPath dir rel) f) := by
  cases node with
  | dir => exact absurd rfl hnode
  | file bytes => rfl
  | link target => rfl

theorem read_of_memberOf {m : Member} (hnode : node ≠ .dir)
    (h : (memberOf d dir rel node : Except (PackFailure ε) Member) = .ok m) :
    ∃ place bytes, d.find (entryPath dir rel) = .ok place ∧
      d.tree.get? place = some (.file bytes) ∧ m = ⟨memberName rel, bytes, true⟩ := by
  rw [memberOf_of_ne_dir hnode] at h
  split at h
  · rename_i bytes hread
    obtain ⟨place, hf, hfile⟩ := read_iff.1 hread
    exact ⟨place, bytes, hf, hfile, (Except.ok.inj h).symm⟩
  · cases h

theorem archives_of_memberOf {m : Member} (hdir : d.find dir = .ok top)
    (hget : d.tree.get? (top ++ rel) = some node) (hne : rel ≠ [])
    (hplain : ∀ name ∈ rel, '\\' ∉ name.toList)
    (h : (memberOf d dir rel node : Except (PackFailure ε) Member) = .ok m) :
    Archives d dir rel node m := by
  have hstretch : ∀ name ∈ rel, Path.IsStretch name := fun name hm =>
    isStretch_of_isEntryName (FileTree.isEntryName_of_below hget name hm)
  cases node with
  | dir =>
    cases h
    rw [directoryName_memberName hstretch hne hplain]
    exact .dir
  | file bytes =>
    obtain ⟨place, bytes', hf, hfile, rfl⟩ := read_of_memberOf (by simp) h
    obtain rfl := find_entryPath hdir hget (by simp) hne hf
    rw [hget] at hfile
    cases hfile
    exact .file bytes
  | link target =>
    obtain ⟨place, bytes, hf, hfile, rfl⟩ := read_of_memberOf (by simp) h
    exact .link hf hfile

namespace Archives

variable {m : Member}

theorem names_member (h : Archives d dir rel node m) (hrel : ∀ name ∈ rel, Path.IsStretch name) :
    (⟨m.name⟩ : Path).names = rel := by
  cases h with
  | dir => exact names_directory hrel
  | file | link => exact names_memberName hrel

theorem deflated_member (h : Archives d dir rel node m) : m.deflated = decide (node ≠ .dir) := by
  cases h with
  | dir => rfl
  | file | link => simp

end Archives

theorem forall₂_of_collect {taken : List String} {entries : List (Place × Node)} {ms : List Member}
    (h : collect w d dir taken entries = (ms, none)) :
    List.Forall₂ (fun e m => (memberOf d dir e.1 e.2 : Except (PackFailure ε) Member) = .ok m)
      entries ms := by
  induction entries generalizing taken ms with
  | nil =>
    cases h
    exact .nil
  | cons e rest ih =>
    obtain ⟨rel, node⟩ := e
    rw [collect] at h
    cases hr : w.refusal? taken (storedName rel node) with
    | some reason => simp [hr] at h
    | none =>
      cases hm : (memberOf d dir rel node : Except (PackFailure ε) Member) with
      | error e => simp [hr, hm] at h
      | ok m =>
        cases hb : (barrier? d dir rel node : Option (PackFailure ε)) with
        | some e => simp [hr, hm, hb] at h
        | none =>
          simp only [hr, hm, hb, Prod.mk.injEq] at h
          obtain ⟨rfl, hstop⟩ := h
          exact .cons hm (ih (Prod.ext rfl hstop))

/-! ## What is archived -/

def SameCanonical (d : Disk) (p q : Path) : Prop := ∃ c, d.canonical p = .ok c ∧ d.canonical q = .ok c

/-- An archive is told by its canonical path, and nothing is taken for one that has none. -/
theorem isArchive_iff : isArchive d (identity d archive) dir rel = true ↔
    SameCanonical d (entryPath dir rel) archive := by
  unfold isArchive identity SameCanonical
  cases hentry : d.canonical (entryPath dir rel) with
  | error f => simp
  | ok c =>
    cases harchive : d.canonical archive with
    | ok c' => simp [eq_comm]
    | error f =>
      simp only [decide_eq_true_eq, reduceCtorEq, and_false, exists_false, iff_false]
      rintro rfl
      rw [Disk.canonical_canonical hentry] at harchive
      cases harchive

/-- What has the canonical path of the archive leads to the archive. -/
theorem locate_of_sameCanonical {p : Path} {place : Place} (harchive : d.find archive = .ok place)
    (h : SameCanonical d p archive) : d.locate .follow p p.steps = .ok (.node place) := by
  obtain ⟨c, hc, hself⟩ := h
  have hnames : ∀ q : Place, d.tree.get? q ≠ none → (Path.ofPlace q).names = q := fun q hq =>
    Path.names_ofEntries (FileTree.isEntryName_of_get? hq)
  obtain ⟨_, _, hlocate⟩ := Disk.land_iff_locate.1 (Disk.find_iff.1 harchive)
  obtain ⟨mine, hc', hmine, hmineget, _⟩ := Disk.canonical_ok hself
  obtain ⟨other, heq, hother, hotherget, _⟩ := Disk.canonical_ok hc
  rw [hlocate] at hmine
  cases hmine
  have hplaces := congrArg Path.names (hc'.symm.trans heq)
  rw [hnames place hmineget, hnames other hotherget] at hplaces
  rw [hother, hplaces]

/-- Where there is a working directory, and the path of the archive is not too long, that is
what leads to the archive. -/
theorem sameCanonical_iff {p : Path} {place : Place} (hremoved : d.workdir.removed = 0)
    (hsize : (Path.ofPlace place).text.utf8ByteSize ≤ maxPathBytes)
    (harchive : d.find archive = .ok place) (hnul : p.hasNul = false) :
    SameCanonical d p archive ↔ d.locate .follow p p.steps = .ok (.node place) := by
  have hcanonical : ∀ q : Path, q.hasNul = false → d.locate .follow q q.steps = .ok (.node place) →
      d.canonical q = .ok (.ofPlace place) := by
    intro q hq hlocate
    unfold Disk.canonical
    rw [hq, hlocate]
    simp only [Bool.false_eq_true, if_false, hremoved, ne_eq, not_true_eq_false, decide_false,
      Bool.and_false]
    rw [if_neg (Nat.not_lt.2 hsize)]
  obtain ⟨hanul, _, hlocate⟩ := Disk.land_iff_locate.1 (Disk.find_iff.1 harchive)
  constructor
  · exact locate_of_sameCanonical harchive
  · intro h
    exact ⟨_, hcanonical p hnul h, hcanonical archive hanul hlocate⟩

/-- The entries are what the disk `d'` has below the directory that `dir` led to on `d`,
links not entered, but for what has the canonical path of the archive, in the order of the
octets of their names. A directory comes before its contents, with nothing else between. -/
structure Lists (d d' : Disk) (archive : Path) (place : Place) (dir : Path)
    (entries : List (Place × Node)) : Prop where
  mem : ∀ rel node, (rel, node) ∈ entries ↔
    (∃ top, d.find dir = .ok top ∧ rel ≠ [] ∧ d'.tree.get? (top ++ rel) = some node) ∧
      ¬ SameCanonical d' (entryPath dir rel) archive
  /-- What has that path is what leads to the archive, where there is a working directory
  and the canonical path of the archive is not too long. -/
  own : d.workdir.removed = 0 → (Path.ofPlace place).text.utf8ByteSize ≤ maxPathBytes →
    ∀ top rel node, d.find dir = .ok top → d'.tree.get? (top ++ rel) = some node →
      (SameCanonical d' (entryPath dir rel) archive ↔
        d'.locate .follow (entryPath dir rel) (entryPath dir rel).steps = .ok (.node place))
  ascending : entries.Pairwise fun x y => x.1.map Text.Utf8.octets < y.1.map Text.Utf8.octets
  together : ∀ x y z, [x, y, z].Sublist entries → x.1 <+: z.1 → x.1 <+: y.1

theorem lists_candidates {place : Place} (hcreates : d.Creates archive place d')
    (hdir : d.isDir dir = true) : Lists d d' archive place dir (candidates d' archive dir) := by
  have hfind := Disk.find_of_isDir hcreates.outlines hdir
  have hascending : (candidates d' archive dir).Pairwise fun x y => x.1 < y.1 := by
    unfold candidates
    split
    · exact (FileTree.below_ascending _ _).sublist List.filter_sublist
    · exact .nil
  refine ⟨fun rel node => ?_, fun hremoved hsize top rel node htop hget => ?_,
    hascending.imp fun hlt => ?_, fun x y z hsub hpre => ?_⟩
  · rw [← hfind, ← isArchive_iff]
    unfold candidates
    cases d'.find dir with
    | error f => simp
    | ok top => simp [FileTree.mem_below]
  · have hnul := (Disk.land_iff_locate.1 (Disk.find_iff.1 htop)).1
    rw [← hcreates.workdir] at hremoved
    exact sameCanonical_iff hremoved hsize hcreates.find
      (hasNul_entryPath hnul (FileTree.isEntryName_of_below hget))
  · exact List.map_lt (fun _ _ => Text.Utf8.encode_lt) hlt
  · obtain ⟨more, hz⟩ := hpre
    have hthree := hascending.sublist hsub
    simp only [List.pairwise_cons, List.mem_cons, List.not_mem_nil, or_false, forall_eq_or_imp,
      forall_eq] at hthree
    exact prefix_of_between hthree.1.1 (hz ▸ hthree.2.1)

namespace Lists

variable {place : Place} {entries : List (Place × Node)}
  (h : Lists d d' archive place dir entries)

include h

theorem isStretch : ∀ e ∈ entries, ∀ name ∈ e.1, Path.IsStretch name := by
  intro e he name hm
  obtain ⟨⟨top, _, _, hget⟩, _⟩ := (h.mem e.1 e.2).1 he
  exact isStretch_of_isEntryName (FileTree.isEntryName_of_below hget name hm)

theorem nodup : (entries.map (·.1)).Nodup := by
  refine List.pairwise_map.2 (h.ascending.imp fun {x y} hlt heq => ?_)
  rw [show x.1 = y.1 from heq] at hlt
  exact List.lt_irrefl _ hlt

/-- Each of them has its member. -/
theorem archives {ms : List Member} (hfind : d'.find dir = d.find dir)
    (hplain : ∀ top rel node, d.find dir = .ok top → d'.tree.get? (top ++ rel) = some node →
      ∀ name ∈ rel, '\\' ∉ name.toList)
    (hcollect : collect w d' dir [] entries = (ms, none)) :
    List.Forall₂ (fun e m => Archives d' dir e.1 e.2 m) entries ms := by
  have hboth := (List.forall₂_and_left _ _).2
    ⟨fun _ (he : _ ∈ entries) => he, forall₂_of_collect hcollect⟩
  refine hboth.imp fun e m hem => ?_
  obtain ⟨⟨top, htop, hne, hget⟩, _⟩ := (h.mem e.1 e.2).1 hem.1
  exact archives_of_memberOf (hfind.trans htop) hget hne (hplain top e.1 e.2 htop hget) hem.2

end Lists

/-! ## A packing -/

/-- The archive has been created at `place`, which has made `d` the disk `d'`. -/
def Opens (d : Disk) (archive : Path) (place : Place) (d' : Disk) : Prop :=
  ∃ d₁ d₂, OutputStack.makeParents d archive = (d₁, .ok ()) ∧ d₁.ensureFile archive = .ok (d₂, place) ∧
    d' = d₂.setContent place .empty

theorem Opens.creates {place : Place} (h : Opens d archive place d') : d.Creates archive place d' := by
  obtain ⟨d₁, d₂, hmade, hfile, rfl⟩ := h
  have hadds := Disk.adds_makeParents archive d
  rw [hmade] at hadds
  exact Disk.creates_of_ensureFile hadds hfile

theorem packageWith_of_isDir (w : Zip.Writer ε) (hdir : d.isDir dir = true) (archive : Path) :
    packageWith w d dir archive =
      match OutputStack.makeParents d archive with
      | (d, .error f) => ⟨d, [], .error (.createArchive archive f)⟩
      | (d, .ok ()) => match d.ensureFile archive with
        | .error f => ⟨d, [], .error (.createArchive archive f)⟩
        | .ok (d, place) => fill w (d.setContent place .empty) archive place dir := by
  unfold packageWith OutputStack.makeParents
  cases archive.parent? <;> exact if_pos hdir

theorem Opens.packageWith {place : Place} (h : Opens d archive place d') (w : Zip.Writer ε)
    (hdir : d.isDir dir = true) : packageWith w d dir archive = fill w d' archive place dir := by
  obtain ⟨d₁, d₂, hmade, hfile, rfl⟩ := h
  rw [packageWith_of_isDir w hdir, hmade]
  simp only [hfile]

/-- A packing comes to nothing, or it creates the archive and goes on to fill it. -/
theorem packageWith_cases (w : Zip.Writer ε) (d : Disk) (dir archive : Path) :
    (∃ d' e, packageWith w d dir archive = ⟨d', [], .error e⟩) ∨
    d.isDir dir = true ∧ ∃ place d', Opens d archive place d' ∧
      packageWith w d dir archive = fill w d' archive place dir := by
  by_cases hdir : d.isDir dir = true
  · rw [packageWith_of_isDir w hdir]
    cases hmade : OutputStack.makeParents d archive with
    | mk d₁ told =>
      cases told with
      | error f => exact .inl ⟨d₁, _, rfl⟩
      | ok u =>
        cases hfile : d₁.ensureFile archive with
        | error f => exact .inl ⟨d₁, .createArchive archive f, by simp only [hfile]⟩
        | ok r =>
          exact .inr ⟨hdir, r.2, _, ⟨d₁, r.1, hmade, hfile, rfl⟩, by simp only [hfile]⟩
  · unfold Archive.packageWith
    rw [if_neg hdir]
    exact .inl ⟨d, _, rfl⟩

theorem creates_of_packageWith {packed : Packed}
    (h : (packageWith w d dir archive).result = .ok packed) :
    d.isDir dir = true ∧ ∃ d' place, d.Creates archive place d' ∧
      packageWith w d dir archive = fill w d' archive place dir := by
  rcases packageWith_cases w d dir archive with ⟨d', e, he⟩ | ⟨hdir, place, d', hopens, hfill⟩
  · rw [he] at h
    cases h
  · exact ⟨hdir, d', place, hopens.creates, hfill⟩

/-- What is filled in are the members for all that was to be archived. -/
theorem collect_of_fill {place : Place} {packed : Packed}
    (h : (fill w d archive place dir).result = .ok packed) :
    ∃ ms, collect w d dir [] (candidates d archive dir) = (ms, none) ∧
      (fill w d archive place dir).disk = d.setContent place (Zip.encode ms) ∧
      packed = ⟨archive, ms.countP (·.deflated), ms.length - ms.countP (·.deflated)⟩ := by
  unfold fill at h ⊢
  generalize collect w d dir [] (candidates d archive dir) = collected at h ⊢
  obtain ⟨ms, stop⟩ := collected
  cases stop with
  | some e => cases h
  | none =>
    cases hend : w.unfinished? (ms.map (·.name)) with
    | some reason =>
      simp only [hend] at h
      cases h
    | none =>
      simp only [hend] at h
      cases h
      simp only [List.countP_eq_length_filter]
      exact ⟨ms, rfl, rfl, rfl⟩

/-- What is archived is directories and other nodes. -/
theorem length_eq_countP (entries : List (Place × Node)) : entries.length =
    (entries.countP fun e => e.2 ≠ .dir) + entries.countP fun e => e.2 = .dir := by
  rw [List.length_eq_countP_add_countP (fun e : Place × Node => decide (e.2 ≠ .dir))]
  congr 1
  exact List.countP_congr fun e _ => by simp

section

variable {entries : List (Place × Node)} {ms : List Member}
  (h : List.Forall₂ (fun e m => Archives d dir e.1 e.2 m) entries ms)

include h

/-- What the members tell of the nodes is told in the same order. -/
theorem map_members {α : Type} {f : Member → α} {g : Place × Node → α}
    (hfg : ∀ e ∈ entries, ∀ m, Archives d dir e.1 e.2 m → f m = g e) : ms.map f = entries.map g := by
  induction h with
  | nil => rfl
  | @cons e m entries ms hem _ ih =>
    rw [List.map_cons, List.map_cons, hfg e List.mem_cons_self m hem,
      ih fun e' he' => hfg e' (List.mem_cons_of_mem _ he')]

/-- No two members have the same name. -/
theorem nodup_members (hnodup : (entries.map (·.1)).Nodup)
    (hstretch : ∀ e ∈ entries, ∀ name ∈ e.1, Path.IsStretch name) : (ms.map (·.name)).Nodup := by
  have hnames : ms.map (fun m => (⟨m.name⟩ : Path).names) = entries.map (·.1) :=
    map_members h fun e he _ hm => hm.names_member (hstretch e he)
  have hsplit : ms.map (fun m => (⟨m.name⟩ : Path).names) =
      (ms.map (·.name)).map fun name => (⟨name⟩ : Path).names := by
    rw [List.map_map]
    rfl
  rw [← hnames, hsplit] at hnodup
  refine List.Pairwise.of_map _ ?_ hnodup
  rintro name other hne rfl
  exact hne rfl

theorem countP_members : ms.countP (·.deflated) = entries.countP (fun e => e.2 ≠ .dir) ∧
    ms.length - ms.countP (·.deflated) = entries.countP fun e => e.2 = .dir := by
  have hkinds : ms.map (·.deflated) = entries.map fun e => decide (e.2 ≠ .dir) :=
    map_members h fun _ _ _ hm => hm.deflated_member
  have hfiles : ms.countP (·.deflated) = entries.countP fun e => e.2 ≠ .dir := by
    have hcount := congrArg (List.countP id) hkinds
    rwa [List.countP_map, List.countP_map] at hcount
  exact ⟨hfiles, by rw [hfiles, ← h.length_eq, length_eq_countP entries, Nat.add_sub_cancel_left]⟩

end

/-- An archive is the tree below its directory, whatever writer has made it. -/
theorem package_archives_tree {ε : Type} {w : Zip.Writer ε} {d : Disk} {dir archive : Path} {packed : Packed}
    (h : (packageWith w d dir archive).result = .ok packed)
    (hplain : ∀ top rel node, d.find dir = .ok top →
      (packageWith w d dir archive).disk.tree.get? (top ++ rel) = some node →
      ∀ name ∈ rel, '\\' ∉ name.toList) :
    ∃ d' place entries ms,
      d.Creates archive place d' ∧
      Lists d d' archive place dir entries ∧
      List.Forall₂ (fun e m => Archives d' dir e.1 e.2 m) entries ms ∧
      (ms.map (·.name)).Nodup ∧
      d'.Sets (packageWith w d dir archive).disk place (some (.file (Zip.encode ms))) ∧
      (packageWith w d dir archive).disk.find archive = .ok place ∧
      (packageWith w d dir archive).disk.workdir = d.workdir ∧
      packed = ⟨archive, entries.countP fun e => e.2 ≠ .dir, entries.countP fun e => e.2 = .dir⟩ := by
  obtain ⟨hdir, d', place, hcreates, hfill⟩ := creates_of_packageWith h
  rw [hfill] at h hplain ⊢
  obtain ⟨ms, hcollect, hdisk, hpacked⟩ := collect_of_fill h
  rw [hdisk] at hplain ⊢
  have hsets : d'.Sets (d'.setContent place (Zip.encode ms)) place (some (.file (Zip.encode ms))) :=
    Disk.setContent_sets hcreates.empty
  have hfilled : d'.Outlines (d'.setContent place (Zip.encode ms)) :=
    Disk.outlines_of_file rfl (.inr ⟨_, hcreates.empty⟩) hsets.get?
      fun _ _ hq hnode => (hsets.get?_of_ne hq).trans hnode
  have hlists := lists_candidates hcreates hdir
  have hplain' : ∀ top rel node, d.find dir = .ok top → d'.tree.get? (top ++ rel) = some node →
      ∀ name ∈ rel, '\\' ∉ name.toList := by
    intro top rel node htop hget
    by_cases hq : top ++ rel = place
    · exact hplain top rel _ htop ((congrArg _ hq).trans hsets.get?)
    · exact hplain top rel node htop ((hsets.get?_of_ne hq).trans hget)
  have hmembers := hlists.archives (Disk.find_of_isDir hcreates.outlines hdir) hplain' hcollect
  obtain ⟨hfiles, hdirs⟩ := countP_members hmembers
  refine ⟨d', place, candidates d' archive dir, ms, hcreates, hlists, hmembers,
    nodup_members hmembers hlists.nodup hlists.isStretch, hsets,
    Disk.find_of_outlines hfilled hcreates.find, hcreates.workdir, ?_⟩
  rw [hpacked, hdirs, hfiles]

/-- The archive is in a new directory below the one that is packed, where a link leads to
it: there are two files and two directories in it. -/
theorem package_archives_tree_inside :
    let t := ((((FileTree.empty.add [] "p" .dir).add ["p"] "a" .dir).add ["p", "a"] "f"
      (.file .empty)).add ["p"] "l" (.link ⟨"a/f"⟩)).add ["p"] "z" (.link ⟨"new/x.zip"⟩)
    let d : Disk := ⟨t, ⟨["p"], 0⟩⟩
    let archive : Path := ⟨"new/x.zip"⟩
    (package d ⟨"."⟩ archive).result = .ok ⟨archive, 2, 2⟩ ∧
      ∃ ms, (package d ⟨"."⟩ archive).disk.tree.get? ["p", "new", "x.zip"] =
        some (.file (Zip.encode ms)) ∧ ms.length = 4 ∧ (ms.map (·.name)).Nodup := by
  intro t d archive
  have hresult : (package d ⟨"."⟩ archive).result = .ok ⟨archive, 2, 2⟩ :=
    ok_of_toOption (by decide +kernel)
  have hfind : d.find ⟨"."⟩ = .ok ["p"] := ok_of_toOption (by decide +kernel)
  have hplace : (package d ⟨"."⟩ archive).disk.find archive = .ok ["p", "new", "x.zip"] :=
    ok_of_toOption (by decide +kernel)
  have hbelow : ∀ x ∈ (package d ⟨"."⟩ archive).disk.tree.below ["p"],
      ∀ name ∈ x.1, '\\' ∉ name.toList := by decide +kernel
  have hplain : ∀ top rel node, d.find ⟨"."⟩ = .ok top →
      (package d ⟨"."⟩ archive).disk.tree.get? (top ++ rel) = some node →
      ∀ name ∈ rel, '\\' ∉ name.toList := by
    intro top rel node htop hget name hm
    rw [hfind] at htop
    cases htop
    exact hbelow (rel, node) (FileTree.mem_below.2 ⟨List.ne_nil_of_mem hm, hget⟩) name hm
  obtain ⟨d', place, entries, ms, _, _, hmembers, hnodup, hsets, hthere, _, hcounts⟩ :=
    package_archives_tree hresult hplain
  cases hplace.symm.trans hthere
  obtain ⟨-, hfiles, hdirs⟩ := Packed.mk.inj hcounts
  exact ⟨hresult, ms, hsets.get?,
    by rw [← hmembers.length_eq, length_eq_countP entries, ← hfiles, ← hdirs], hnodup⟩

/-- An archive that is named from a directory that has been removed has no canonical path.
It is below the directory that is packed, but it is not left out, and is a member of itself. -/
theorem package_holds_itself :
    let d : Disk := ⟨FileTree.empty.add [] "t" .dir, ⟨["t"], 1⟩⟩
    let archive : Path := ⟨"../../u/x.zip"⟩
    (package d ⟨"/"⟩ archive).result = .ok ⟨archive, 1, 2⟩ ∧
      (package d ⟨"/"⟩ archive).disk.find archive = .ok ["u", "x.zip"] ∧
      (package d ⟨"/"⟩ archive).disk.tree.get? ["u", "x.zip"] =
        some (.file (Zip.encode
          [⟨"t/", .empty, false⟩, ⟨"u/", .empty, false⟩, ⟨"u/x.zip", .empty, true⟩])) := by
  intro d archive
  refine ⟨ok_of_toOption (by decide +kernel), ok_of_toOption (by decide +kernel), ?_⟩
  let made := (OutputStack.makeParents d archive).1
  let opened := (made.ensureFile archive).toOption.getD (d, [])
  let d' := opened.1.setContent ["u", "x.zip"] .empty
  have hmade : (OutputStack.makeParents d archive).2 = .ok () := ok_of_toOption (by decide +kernel)
  have hplace : opened.2 = ["u", "x.zip"] := by decide +kernel
  have hopens : Opens d archive ["u", "x.zip"] d' := by
    refine ⟨made, opened.1, Prod.ext rfl hmade, ok_of_toOption ?_, rfl⟩
    obtain ⟨r, hr⟩ : ∃ r, (made.ensureFile archive).toOption = some r :=
      Option.isSome_iff_exists.1 (by decide +kernel)
    rw [← hplace, hr]
    show some r = some ((made.ensureFile archive).toOption.getD (d, []))
    rw [hr]
    rfl
  -- The archive has no canonical path, so nothing is left out.
  have hmembers : (collect .own d' ⟨"/"⟩ [] (candidates d' archive ⟨"/"⟩)).1 =
      [⟨"t/", .empty, false⟩, ⟨"u/", .empty, false⟩, ⟨"u/x.zip", .empty, true⟩] := by
    decide +kernel
  have hthere : d'.tree.get? ["u", "x.zip"] = some (.file .empty) := by decide +kernel
  have hfill : package d ⟨"/"⟩ archive = fill .own d' archive ["u", "x.zip"] ⟨"/"⟩ :=
    hopens.packageWith .own (by decide +kernel)
  rw [hfill, ← hmembers]
  exact (Disk.setContent_sets hthere).get?

end Archive

end Datapack
