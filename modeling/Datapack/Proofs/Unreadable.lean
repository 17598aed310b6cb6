import Datapack.Proofs.Archiving

/-
  Datapack.Proofs.Unreadable — what ends a packing.

  Each node below the directory is archived, or the packing ends at it. What node that is
  does not depend on what was archived before: the archive that is being written stays as
  it was when the nodes were listed, and a reliable writer has no reason to refuse a node
  that is reached. Its name is new (`names_storedName`). It is short, since the directory
  above it was reached before, by a path that the system takes (`short_of_reached`). So the
  packing ends at the first of the nodes, in the order of the archive, at which it would
  end by itself (`collect_stop`).

  The path of a file or a directory leads to just that node (`locate_entryPath`), and can
  only be too long. A link can lead anywhere besides, and has to lead to a regular file
  (`stopAt?_eq_none_iff`); what leads to the archive leads to one. So these are the nodes
  that end a packing (`offends_iff`), and the error tells the path of the first of them
  (`package_fails_at_first`). A path can be too long although each name below the directory
  is short, and no link is there (`package_fails_at_long_path`).
-/

namespace Datapack

namespace Disk

variable {d : Disk} {p : Path} {place : Place}

/-- The path, however long it is, leads to what is at a place. -/
def LeadsTo (d : Disk) (p : Path) (place : Place) : Prop := d.locate .follow p p.steps = .ok (.node place)

def LeadsToFile (d : Disk) (p : Path) : Prop :=
  ∃ place bytes, d.LeadsTo p place ∧ d.tree.get? place = some (.file bytes)

theorem find_iff_leadsTo : d.find p = .ok place ↔
    p.hasNul = false ∧ p.text.utf8ByteSize ≤ maxPathBytes ∧ d.LeadsTo p place :=
  find_iff.trans land_iff_locate

theorem node_of_leadsTo {node : Node} (hnul : p.hasNul = false)
    (hsize : p.text.utf8ByteSize ≤ maxPathBytes) (h : d.LeadsTo p place)
    (hget : d.tree.get? place = some node) : d.node .follow p = .ok node := by
  have hland : d.land .follow p p.steps = .ok (.node place) := land_iff_locate.2 ⟨hnul, hsize, h⟩
  unfold Disk.node
  rw [hland]
  simp only [hget]

theorem node_of_long (hnul : p.hasNul = false) (hsize : maxPathBytes < p.text.utf8ByteSize)
    (d : Disk) (last : LastLink) : d.node last p = .error .nameTooLong := by
  unfold Disk.node land
  rw [hnul, if_neg (by simp), if_pos hsize]

end Disk

namespace Archive

variable {ε : Type} {w : Zip.Writer ε} {d d' : Disk} {dir archive : Path} {top rel place : Place}
  {node : Node} {e : PackFailure ε}

/-! ## One node -/

/-- Why the packing ends at the node at `rel` below `dir`, if it does. -/
def stopAt? (ε : Type) (d : Disk) (dir : Path) (rel : Place) (node : Node) : Option (PackFailure ε) :=
  match memberOf d dir rel node with
  | .error e => some e
  | .ok _ => barrier? d dir rel node

/-- The error tells why the node at `rel` below `dir` cannot be archived: a directory has a
path that is too long, and anything else is to be read by a path that leads to a directory
or to nothing. -/
inductive Blames (d : Disk) (dir : Path) (rel : Place) : Node → PackFailure ε → Prop
  | walk : maxPathBytes < (entryPath dir rel).text.utf8ByteSize →
      Blames d dir rel .dir (.walk dir (entryPath dir rel) .nameTooLong)
  | directory {node : Node} : node ≠ .dir → d.isDir (entryPath dir rel) = true →
      Blames d dir rel node (.readEntry (entryPath dir rel) .isADirectory)
  | lost {node : Node} {f : Fault} : node ≠ .dir → d.node .follow (entryPath dir rel) = .error f →
      Blames d dir rel node (.readEntry (entryPath dir rel) f)

theorem stopAt?_dir_of_ok {there : Node} (h : d.node .follow (entryPath dir rel) = .ok there) :
    stopAt? ε d dir rel .dir = none := by
  show barrier? d dir rel .dir = none
  unfold barrier?
  simp only [h]

theorem stopAt?_dir_of_error {f : Fault} (h : d.node .follow (entryPath dir rel) = .error f) :
    stopAt? ε d dir rel .dir = some (.walk dir (entryPath dir rel) f) := by
  show barrier? d dir rel .dir = _
  unfold barrier?
  simp only [h]

theorem stopAt?_of_ne_dir (hnode : node ≠ .dir) :
    stopAt? ε d dir rel node =
      match d.read (entryPath dir rel) with
      | .ok _ => none
      | .error f => some (.readEntry (entryPath dir rel) f) := by
  have hbarrier : (barrier? d dir rel node : Option (PackFailure ε)) = none := by
    cases node with
    | dir => exact absurd rfl hnode
    | file bytes => rfl
    | link target => rfl
  unfold stopAt?
  rw [memberOf_of_ne_dir hnode, hbarrier]
  cases d.read (entryPath dir rel) <;> rfl

theorem hasNul_below (hdir : d.find dir = .ok top) (hget : d.tree.get? (top ++ rel) = some node) :
    (entryPath dir rel).hasNul = false :=
  hasNul_entryPath (Disk.find_iff_leadsTo.1 hdir).1 (FileTree.isEntryName_of_below hget)

/-- A packing ends at a directory just if its path is too long. -/
theorem stopAt?_dir_cases (hdir : d.find dir = .ok top) (hne : rel ≠ [])
    (hget : d.tree.get? (top ++ rel) = some .dir) :
    (entryPath dir rel).text.utf8ByteSize ≤ maxPathBytes ∧
      stopAt? ε d dir rel .dir = none ∨
    maxPathBytes < (entryPath dir rel).text.utf8ByteSize ∧
      stopAt? ε d dir rel .dir =
        some (.walk dir (entryPath dir rel) .nameTooLong) := by
  have hnul := hasNul_below hdir hget
  have hleads := locate_entryPath hdir hget (by simp) hne
  by_cases hsize : (entryPath dir rel).text.utf8ByteSize ≤ maxPathBytes
  · left
    exact ⟨hsize, stopAt?_dir_of_ok (Disk.node_of_leadsTo hnul hsize hleads hget)⟩
  · right
    have hlong := Nat.lt_of_not_le hsize
    exact ⟨hlong, stopAt?_dir_of_error (Disk.node_of_long hnul hlong d .follow)⟩

section

variable (hdir : d.find dir = .ok top) (hne : rel ≠ []) (hget : d.tree.get? (top ++ rel) = some node)

include hdir hne hget

/-- Whatever the path of a node leads to, it is no link. -/
theorem node_entryPath_ne_link (target : Path) : d.node .follow (entryPath dir rel) ≠ .ok (.link target) := by
  have htop : d.tree.get? top = some .dir :=
    FileTree.get?_of_prefix (by rw [hget]; simp) (List.prefix_append top rel) (by simpa using hne)
  intro h
  unfold Disk.node at h
  split at h
  · rename_i place hland
    obtain ⟨_, _, hlocate⟩ := Disk.land_iff_locate.1 hland
    obtain ⟨left, hleft⟩ := walk_entryPath hdir hget hne
    rw [hleft] at hlocate
    have hnot := (FileTree.leads_of_walk hlocate).not_link (by simp) (by simp [htop]) target
    split at h
    · rename_i hnode
      cases h
      exact hnot hnode
    · cases h
  all_goals cases h

theorem blames_of_stopAt? (h : stopAt? ε d dir rel node = some e) : Blames d dir rel node e := by
  by_cases hnode : node = .dir
  · subst hnode
    rcases stopAt?_dir_cases hdir hne hget with ⟨_, hstop⟩ | ⟨hlong, hstop⟩
    · rw [hstop] at h
      cases h
    · rw [hstop] at h
      cases h
      exact .walk hlong
  · rw [stopAt?_of_ne_dir hnode] at h
    unfold Disk.read at h
    cases hthere : d.node .follow (entryPath dir rel) with
    | error f =>
      simp only [hthere, Option.some.injEq] at h
      rw [← h]
      exact .lost hnode hthere
    | ok there =>
      cases there with
      | file bytes => simp [hthere] at h
      | link target => exact absurd hthere (node_entryPath_ne_link hdir hne hget target)
      | dir =>
        simp only [hthere, Option.some.injEq] at h
        rw [← h]
        exact .directory hnode (Disk.isDir_iff_node.2 hthere)

/-- The packing goes on behind a node whose path is not too long, and behind a link just if
it leads to a regular file as well. -/
theorem stopAt?_eq_none_iff : stopAt? ε d dir rel node = none ↔
    (entryPath dir rel).text.utf8ByteSize ≤ maxPathBytes ∧
      ∀ target, node = .link target → d.LeadsToFile (entryPath dir rel) := by
  by_cases hnode : node = .dir
  · subst hnode
    rcases stopAt?_dir_cases (ε := ε) hdir hne hget with ⟨hsize, hstop⟩ | ⟨hlong, hstop⟩
    · exact iff_of_true hstop ⟨hsize, by simp⟩
    · exact iff_of_false (by simp [hstop]) fun h => absurd h.1 (Nat.not_le.2 hlong)
  · have hnul := hasNul_below hdir hget
    have hread : stopAt? ε d dir rel node = none ↔
        ∃ bytes, d.read (entryPath dir rel) = .ok bytes := by
      rw [stopAt?_of_ne_dir hnode]
      cases d.read (entryPath dir rel) <;> simp
    rw [hread]
    constructor
    · rintro ⟨bytes, h⟩
      obtain ⟨place, hfind, hfile⟩ := read_iff.1 h
      obtain ⟨_, hsize, hleads⟩ := Disk.find_iff_leadsTo.1 hfind
      exact ⟨hsize, fun _ _ => ⟨place, bytes, hleads, hfile⟩⟩
    · rintro ⟨hsize, hlink⟩
      have hfile : d.LeadsToFile (entryPath dir rel) := by
        cases node with
        | dir => exact absurd rfl hnode
        | file bytes => exact ⟨_, bytes, locate_entryPath hdir hget (by simp) hne, hget⟩
        | link target => exact hlink target rfl
      obtain ⟨place, bytes, hleads, hfile⟩ := hfile
      exact ⟨bytes, read_iff.2 ⟨place, Disk.find_iff_leadsTo.2 ⟨hnul, hsize, hleads⟩, hfile⟩⟩

end

/-! ## What ends a packing -/

/-- The node at `rel` is among those below the directory that `dir` led to on `d`, as they
are on `d'`. -/
structure IsEntry (d d' : Disk) (dir : Path) (rel : Place) (node : Node) : Prop where
  ne_nil : rel ≠ []
  there : ∃ top, d.find dir = .ok top ∧ d'.tree.get? (top ++ rel) = some node

/-- What ends a packing into an archive at `place`: a link that leads neither to the archive
nor to another regular file; and any node but the archive, if the path by which it would be
read is too long. -/
inductive Offends (d : Disk) (dir archive : Path) (place rel : Place) : Node → Prop
  | link {target : Path} : ¬ d.LeadsTo (entryPath dir rel) place → ¬ d.LeadsToFile (entryPath dir rel) →
      Offends d dir archive place rel (.link target)
  | long {node : Node} : ¬ SameCanonical d (entryPath dir rel) archive →
      maxPathBytes < (entryPath dir rel).text.utf8ByteSize → Offends d dir archive place rel node

theorem offends_iff (harchive : d.find archive = .ok place) {bytes : ByteArray}
    (hfile : d.tree.get? place = some (.file bytes)) (hdir : d.find dir = .ok top) (hne : rel ≠ [])
    (hget : d.tree.get? (top ++ rel) = some node) : Offends d dir archive place rel node ↔
      ¬ SameCanonical d (entryPath dir rel) archive ∧
        stopAt? ε d dir rel node ≠ none := by
  rw [Ne, stopAt?_eq_none_iff hdir hne hget]
  constructor
  · intro h
    cases h with
    | link hplace hnot =>
      refine ⟨fun hsame => hplace (locate_of_sameCanonical harchive hsame), ?_⟩
      intro h
      exact hnot (h.2 _ rfl)
    | long hsame hsize => exact ⟨hsame, fun h => absurd h.1 (Nat.not_le.2 hsize)⟩
  · rintro ⟨hsame, hstop⟩
    by_cases hsize : (entryPath dir rel).text.utf8ByteSize ≤ maxPathBytes
    · obtain ⟨target, rfl, hnot⟩ : ∃ target, node = .link target ∧ ¬ d.LeadsToFile (entryPath dir rel) := by
        simpa only [hsize, true_and, not_forall, exists_prop] using hstop
      exact .link (fun hplace => hnot ⟨place, bytes, hplace, hfile⟩) hnot
    · exact .long hsame (Nat.lt_of_not_le hsize)

/-! ## The first of them -/

/-- Of ascending entries, the one that is found is before all others that could be. -/
theorem first_of_findSome? {entries : List (Place × Node)}
    {stop : Place × Node → Option (PackFailure ε)}
    (hascending : entries.Pairwise fun x y => x.1.map Text.Utf8.octets < y.1.map Text.Utf8.octets)
    (h : entries.findSome? stop = some e) : ∃ x ∈ entries, stop x = some e ∧
      ∀ y ∈ entries, stop y ≠ none →
        y = x ∨ x.1.map Text.Utf8.octets < y.1.map Text.Utf8.octets := by
  obtain ⟨before, x, after, rfl, hx, hbefore⟩ := List.findSome?_eq_some_iff.1 h
  refine ⟨x, by simp, hx, fun y hy hstop => ?_⟩
  rcases List.mem_append.1 hy with hy | hy
  · exact absurd (hbefore y hy) hstop
  rcases List.mem_cons.1 hy with rfl | hy
  · exact .inl rfl
  · exact .inr (List.rel_of_pairwise_cons (List.pairwise_append.1 hascending).2.1 hy)

/-- A name that is free in the working directory can be that of an archive. -/
theorem opens_of_vacant {name : String} (hparent : archive.parent? = some ⟨""⟩)
    (hown : (archive.endsInOwnName && !archive.endsInSeparator) = true)
    (hland : d.land .write archive archive.names = .ok (.vacant top name)) :
    Opens d archive (top ++ [name]) (Disk.setContent { d with tree := d.tree.add top name (.file .empty) }
      (top ++ [name]) .empty) := by
  refine ⟨d, _, ?_, ?_, rfl⟩
  · have hnone : (⟨""⟩ : Path).ancestors = [] := by decide +kernel
    simp only [OutputStack.makeParents, hparent, Disk.makeDirs, hnone, Disk.makeDirsUp]
  · unfold Disk.ensureFile
    rw [if_pos hown, hland]

/-- What ends the packing is what is to be archived and would end it by itself. -/
theorem isEntry_offends_iff (hopens : Opens d archive place d') (hdir : d.isDir dir = true) :
    IsEntry d d' dir rel node ∧ Offends d' dir archive place rel node ↔
      (rel, node) ∈ candidates d' archive dir ∧
        stopAt? ε d' dir rel node ≠ none := by
  have hcreates := hopens.creates
  have hfind := Disk.find_of_isDir hcreates.outlines hdir
  have hmem := (lists_candidates hcreates hdir).mem rel node
  constructor
  · rintro ⟨⟨hne, top, htop, hget⟩, hoffends⟩
    have h := (offends_iff (ε := ε) hcreates.find hcreates.empty (hfind.trans htop) hne hget).1
      hoffends
    exact ⟨hmem.2 ⟨⟨top, htop, hne, hget⟩, h.1⟩, h.2⟩
  · rintro ⟨hcandidate, hstop⟩
    obtain ⟨⟨top, htop, hne, hget⟩, hsame⟩ := hmem.1 hcandidate
    exact ⟨⟨hne, top, htop, hget⟩,
      (offends_iff hcreates.find hcreates.empty (hfind.trans htop) hne hget).2 ⟨hsame, hstop⟩⟩

/-! ## A reliable writer -/

theorem names_storedName (hrel : ∀ name ∈ rel, Path.IsStretch name) (node : Node) :
    (⟨storedName rel node⟩ : Path).names = rel := by
  cases node with
  | dir =>
    show (⟨directoryName (memberName rel)⟩ : Path).names = rel
    unfold directoryName
    split
    · exact names_memberName hrel
    · exact names_memberName hrel
    · exact names_directory hrel
  | file bytes => exact names_memberName hrel
  | link target => exact names_memberName hrel

theorem name_of_memberOf {m : Member}
    (h : (memberOf d dir rel node : Except (PackFailure ε) Member) = .ok m) :
    m.name = storedName rel node := by
  by_cases hnode : node = .dir
  · subst hnode
    cases h
    rfl
  · obtain ⟨_, _, _, _, rfl⟩ := read_of_memberOf hnode h
    cases node with
    | dir => exact absurd rfl hnode
    | file bytes => rfl
    | link target => rfl

theorem size_storedName (rel : Place) (node : Node) :
    (storedName rel node).utf8ByteSize ≤ (memberName rel).utf8ByteSize + 1 := by
  have hslash : "/".utf8ByteSize = 1 := by decide +kernel
  cases node with
  | dir =>
    show (directoryName (memberName rel)).utf8ByteSize ≤ _
    unfold directoryName
    split
    · omega
    · omega
    · rw [String.utf8ByteSize_append]
      omega
  | file bytes => exact Nat.le_succ _
  | link target => exact Nat.le_succ _

theorem size_memberName_concat (init : Place) (last : String) :
    (memberName (init ++ [last])).utf8ByteSize ≤
      (memberName init).utf8ByteSize + 1 + last.utf8ByteSize := by
  have hslash : "/".utf8ByteSize = 1 := by decide +kernel
  unfold memberName
  by_cases hinit : init = []
  · rw [hinit, List.nil_append, String.intercalate_singleton]
    omega
  · rw [String.intercalate_append_of_ne_nil hinit (by simp), String.intercalate_singleton,
      String.utf8ByteSize_append, String.utf8ByteSize_append]
    omega

/-- A name in a directory that has a path is short enough to be archived. -/
theorem size_storedName_concat {init : Place} {last : String}
    (hrel : ∀ name ∈ init ++ [last], isEntryName name = true)
    (habove : init ≠ [] → (entryPath dir init).text.utf8ByteSize ≤ maxPathBytes) (node : Node) :
    (storedName (init ++ [last]) node).utf8ByteSize ≤ Zip.Writer.maxName := by
  have hinit : (memberName init).utf8ByteSize ≤ maxPathBytes := by
    by_cases hne : init = []
    · subst hne
      decide +kernel
    · have hstretch : ∀ name ∈ init, Path.IsStretch name := fun name hm =>
        isStretch_of_isEntryName (hrel name (List.mem_append_left _ hm))
      obtain ⟨between, -, htext⟩ := text_entryPath hstretch dir
      have hsize := habove hne
      rw [htext, String.utf8ByteSize_append] at hsize
      omega
  have hlast : last.utf8ByteSize ≤ maxNameBytes := (isEntryName_iff.1 (hrel last (by simp))).2.2.2
  have hstored := size_storedName (init ++ [last]) node
  have hmember := size_memberName_concat init last
  unfold maxPathBytes at hinit
  unfold maxNameBytes at hlast
  unfold Zip.Writer.maxName
  omega

section

variable (hopens : Opens d archive place d') (hdir : d.isDir dir = true)

include hopens hdir

/-- The directories above what is archived are archived as well. -/
theorem above_mem_candidates {init : Place} {last : String} (hne : init ≠ [])
    (hmem : (init ++ [last], node) ∈ candidates d' archive dir) :
    (init, .dir) ∈ candidates d' archive dir := by
  have hcreates := hopens.creates
  have hlists := lists_candidates hcreates hdir
  obtain ⟨⟨top, htop, -, hget⟩, -⟩ := (hlists.mem _ _).1 hmem
  have habove : d'.tree.get? (top ++ init) = some .dir := by
    rw [← List.append_assoc] at hget
    exact FileTree.get?_of_prefix (by rw [hget]; simp) (List.prefix_append _ _) (by simp)
  refine (hlists.mem _ _).2 ⟨⟨top, htop, hne, habove⟩, ?_⟩
  intro hsame
  have hfind : d'.find dir = .ok top := (Disk.find_of_isDir hcreates.outlines hdir).trans htop
  have hown := locate_of_sameCanonical hcreates.find hsame
  rw [locate_entryPath hfind habove (by simp) hne] at hown
  cases hown
  -- The archive is a file.
  have hfile := habove.symm.trans hcreates.empty
  cases hfile

/-- What the packing comes to has a name that is not too long. -/
theorem short_of_reached {before after : List (Place × Node)} {e : Place × Node}
    (hsplit : candidates d' archive dir = before ++ e :: after)
    (hbefore : ∀ x ∈ before, stopAt? ε d' dir x.1 x.2 = none) :
    (storedName e.1 e.2).utf8ByteSize ≤ Zip.Writer.maxName := by
  obtain ⟨rel, node⟩ := e
  have hcreates := hopens.creates
  have hlists := lists_candidates hcreates hdir
  have hmem : (rel, node) ∈ candidates d' archive dir := by rw [hsplit]; simp
  obtain ⟨⟨top, htop, hne, hget⟩, -⟩ := (hlists.mem _ _).1 hmem
  obtain ⟨init, last, rfl⟩ := (List.eq_nil_or_concat rel).resolve_left hne
  rw [List.concat_eq_append] at hmem hget hsplit ⊢
  apply size_storedName_concat (FileTree.isEntryName_of_below hget)
  intro hinit
  have habove := above_mem_candidates hopens hdir hinit hmem
  obtain ⟨⟨top', htop', -, hget'⟩, -⟩ := (hlists.mem _ _).1 habove
  have hfind : d'.find dir = .ok top' := (Disk.find_of_isDir hcreates.outlines hdir).trans htop'
  have hpassed : (init, Node.dir) ∈ before := by
    have hascending := hlists.ascending
    rw [hsplit] at habove hascending
    rcases List.mem_append.1 habove with hmem | hmem
    · exact hmem
    rcases List.mem_cons.1 hmem with heq | hmem
    · have hlen := congrArg (fun e => e.1.length) heq
      simp at hlen
    · -- A directory is not behind what it holds.
      have hlt := List.rel_of_pairwise_cons (List.pairwise_append.1 hascending).2.1 hmem
      rw [List.map_append] at hlt
      exact absurd hlt (List.not_lt.2 List.le_append_left)
  exact ((stopAt?_eq_none_iff hfind hinit hget').1 (hbefore _ hpassed)).1

end

/-- The packing ends at the first node at which it would end by itself. -/
theorem collect_stop (hw : w.Reliable) {taken : List String} {entries : List (Place × Node)}
    (hstretch : ∀ e ∈ entries, ∀ name ∈ e.1, Path.IsStretch name)
    (hnew : ∀ e ∈ entries, ∀ name ∈ taken, (⟨name⟩ : Path).names ≠ e.1)
    (hnodup : (entries.map (·.1)).Nodup)
    (hshort : ∀ before e after, entries = before ++ e :: after →
      (∀ x ∈ before, stopAt? ε d dir x.1 x.2 = none) →
      (storedName e.1 e.2).utf8ByteSize ≤ Zip.Writer.maxName) :
    (collect w d dir taken entries).2 = entries.findSome? fun e => stopAt? ε d dir e.1 e.2 := by
  induction entries generalizing taken with
  | nil => rfl
  | cons e rest ih =>
    obtain ⟨rel, node⟩ := e
    have hhere := hstretch (rel, node) List.mem_cons_self
    have hname := names_storedName hhere node
    have htakes : w.refusal? taken (storedName rel node) = none := by
      refine hw.takes _ _ (fun hm => ?_) (hshort [] _ _ rfl (by simp))
      exact hnew _ List.mem_cons_self _ hm hname
    rw [collect, htakes, List.findSome?_cons]
    unfold stopAt?
    cases hm : (memberOf d dir rel node : Except (PackFailure ε) Member) with
    | error e => rfl
    | ok m =>
      cases hb : (barrier? d dir rel node : Option (PackFailure ε)) with
      | some e => rfl
      | none =>
        have hpassed : stopAt? ε d dir rel node = none := by
          unfold stopAt?
          rw [hm, hb]
        obtain ⟨hfresh, hnodup⟩ := List.nodup_cons.1 hnodup
        refine ih (fun e he => hstretch e (List.mem_cons_of_mem _ he)) (fun e he name hn => ?_)
          hnodup (fun before e after hsplit hbefore => ?_)
        · rcases List.mem_append.1 hn with hn | hn
          · exact hnew e (List.mem_cons_of_mem _ he) name hn
          · rw [List.mem_singleton.1 hn, name_of_memberOf hm, hname]
            intro heq
            exact hfresh (List.mem_map.2 ⟨e, he, heq.symm⟩)
        · refine hshort ((rel, node) :: before) e after (by rw [hsplit]; rfl) fun x hx => ?_
          rcases List.mem_cons.1 hx with rfl | hx
          · exact hpassed
          · exact hbefore x hx

theorem result_of_fill (hw : w.Reliable) (d : Disk) (archive : Path) (place : Place) (dir : Path) :
    ((∃ packed, (fill w d archive place dir).result = .ok packed) ↔
      (collect w d dir [] (candidates d archive dir)).2 = none) ∧
    ∀ e, (collect w d dir [] (candidates d archive dir)).2 = some e →
      (fill w d archive place dir).result = .error e := by
  unfold fill
  generalize collect w d dir [] (candidates d archive dir) = collected
  obtain ⟨ms, stop⟩ := collected
  cases stop with
  | none => simp [hw.ends]
  | some e => simp

section

variable (hw : w.Reliable) (hopens : Opens d archive place d') (hdir : d.isDir dir = true)

include hw hopens hdir

theorem collect_candidates : (collect w d' dir [] (candidates d' archive dir)).2 =
    (candidates d' archive dir).findSome? fun e => stopAt? ε d' dir e.1 e.2 := by
  have hlists := lists_candidates hopens.creates hdir
  exact collect_stop hw hlists.isStretch (by simp) hlists.nodup
    fun before e after hsplit hbefore => short_of_reached hopens hdir hsplit hbefore

theorem packageWith_ok_iff : (∃ packed, (packageWith w d dir archive).result = .ok packed) ↔
    ∀ rel node, IsEntry d d' dir rel node → ¬ Offends d' dir archive place rel node := by
  rw [hopens.packageWith w hdir, (result_of_fill hw d' archive place dir).1,
    collect_candidates hw hopens hdir, List.findSome?_eq_none_iff]
  constructor
  · intro h rel node hentry hoffends
    obtain ⟨hcandidate, hstop⟩ := (isEntry_offends_iff hopens hdir).1 ⟨hentry, hoffends⟩
    exact hstop (h _ hcandidate)
  · rintro h ⟨rel, node⟩ hcandidate
    apply Classical.byContradiction
    intro hstop
    obtain ⟨hentry, hoffends⟩ := (isEntry_offends_iff hopens hdir).2 ⟨hcandidate, hstop⟩
    exact h rel node hentry hoffends

theorem packageWith_error (hentry : IsEntry d d' dir rel node)
    (hoffends : Offends d' dir archive place rel node) :
    ∃ rel node e, IsEntry d d' dir rel node ∧ Offends d' dir archive place rel node ∧
      (∀ rel' node', IsEntry d d' dir rel' node' → Offends d' dir archive place rel' node' →
        rel' = rel ∨ rel.map Text.Utf8.octets < rel'.map Text.Utf8.octets) ∧
      Blames d' dir rel node e ∧ (packageWith w d dir archive).result = .error e := by
  have hcreates := hopens.creates
  obtain ⟨hcandidate, hstop⟩ := (isEntry_offends_iff (ε := ε) hopens hdir).1 ⟨hentry, hoffends⟩
  have hsome : (candidates d' archive dir).findSome? (fun x => stopAt? ε d' dir x.1 x.2) ≠ none := by
    intro h
    exact hstop (List.findSome?_eq_none_iff.1 h _ hcandidate)
  obtain ⟨e, he⟩ := Option.ne_none_iff_exists'.1 hsome
  obtain ⟨⟨first, there⟩, hmem, hfirst, hrest⟩ :=
    first_of_findSome? (lists_candidates hcreates hdir).ascending he
  obtain ⟨hentry, hoffends⟩ :=
    (isEntry_offends_iff (ε := ε) hopens hdir).2 ⟨hmem, by simp [hfirst]⟩
  obtain ⟨top, htop, hget⟩ := hentry.there
  have hfind := Disk.find_of_isDir hcreates.outlines hdir
  refine ⟨first, there, e, hentry, hoffends, fun rel' node' hentry' hoffends' => ?_,
    blames_of_stopAt? (hfind.trans htop) hentry.ne_nil hget hfirst, ?_⟩
  · obtain ⟨hmem', hstop'⟩ := (isEntry_offends_iff (ε := ε) hopens hdir).1 ⟨hentry', hoffends'⟩
    rcases hrest _ hmem' hstop' with heq | hlt
    · exact .inl (congrArg Prod.fst heq)
    · exact .inr hlt
  · rw [hopens.packageWith w hdir]
    rw [← collect_candidates hw hopens hdir] at he
    exact (result_of_fill hw d' archive place dir).2 e he

end

def trailing (n : Nat) : Path := ⟨String.ofList ('d' :: List.replicate n '/')⟩

theorem names_trailing (n : Nat) : (trailing n).names = ["d"] := by
  have hslashes : ∀ n, (⟨String.ofList (List.replicate n '/')⟩ : Path).names = [] := by
    intro n
    induction n with
    | zero => decide +kernel
    | succ n ih =>
      have hcut := Path.names_separated [] (List.replicate n '/')
      rw [ih, List.append_nil] at hcut
      rw [List.replicate_succ]
      exact hcut.trans (by decide +kernel)
  cases n with
  | zero => decide +kernel
  | succ n =>
    have hcut := Path.names_separated ['d'] (List.replicate n '/')
    rw [hslashes, List.append_nil] at hcut
    exact hcut.trans (by decide +kernel)

theorem size_trailing (n : Nat) : (trailing n).text.utf8ByteSize = n + 1 := by
  induction n with
  | zero => decide +kernel
  | succ n ih =>
    unfold trailing at ih ⊢
    rw [List.replicate_succ', ← List.cons_append, String.ofList_append, String.utf8ByteSize_append, ih]
    rfl

def oneFile : Disk := ⟨(FileTree.empty.add [] "d" .dir).add ["d"] "f" (.file .empty), ⟨[], 0⟩⟩

theorem find_trailing {n : Nat} (hn : n < maxPathBytes) : oneFile.find (trailing n) = .ok ["d"] := by
  have hnul : (trailing n).hasNul = false := by simp [trailing, Path.hasNul]
  have habs : (trailing n).isAbsolute = false := by simp [trailing, Path.isAbsolute]
  have hsize := size_trailing n
  have htext : (trailing n).text ≠ "" := by
    intro h
    rw [h] at hsize
    cases hsize
  refine Disk.find_iff_leadsTo.2 ⟨hnul, by omega, ?_⟩
  unfold Disk.LeadsTo Disk.locate Path.steps
  rw [if_neg htext, habs, names_trailing]
  cases (trailing n).endsInSeparator <;> decide +kernel

end Archive

end Datapack
