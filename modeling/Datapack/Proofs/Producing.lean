import Datapack.Proofs.Depth
import Datapack.Proofs.Diagnostics
import Datapack.Proofs.Escaping
import Datapack.Proofs.Paving

/-
  Datapack.Proofs.Producing — a script for any text that a file is to have.

  A script that opens a new file in its output directory and has a line for each text
  writes those texts, each on a line of its own, and has nothing to report. The name of
  the file leads to a free place in the directory (`Anchors.locate_output`), so opening
  puts an empty file there (`provide_of_free`), and each line behind adds what it carries
  (`runLines_carries`). A build does that, and then packs if it is to (`build_scriptFor`).

  The disk has to take the path of the file. If the directory lies so deep that this path
  is too long, the opening is skipped, though the directory and the name are all right
  (`build_scriptFor_overlong`).
-/

namespace Datapack

open Script

/-- A name that an argument can give to a new file in the working location: one that a node
can have, without what means something else in an argument. -/
structure IsOutputName (name : String) : Prop where
  entry : isEntryName name = true
  plain : ∀ c ∈ name.toList, c ≠ '\n' ∧ c ≠ '\\' ∧ c ≠ ':' ∧ c ∉ reservedChars
  home : name.toList.head? ≠ some '~'
  trimmed : Text.trim name = name

theorem IsOutputName.newline {name : String} (h : IsOutputName name) : '\n' ∉ name.toList :=
  fun hm => (h.plain _ hm).1 rfl

theorem IsOutputName.quote {name : String} (h : IsOutputName name) : '"' ∉ name.toList :=
  fun hm => (h.plain _ hm).2.2.2 (by decide)

namespace Disk

variable {d d' : Disk} {root : Path} {name : String}

/-! ## A file in a directory -/

theorem parent?_entry (hroot : root.IsCanonical) (hname : isEntryName name = true) :
    (root.child name).parent? = some root := by
  rw [(hroot.child hname).parent?, Path.names_entry hname, if_neg (by simp), List.dropLast_concat,
    ← hroot.eq_ofPlace]

/-- From `d` to `d'` a file has come to be in a directory, or has other content. -/
structure Writes (d : Disk) (root : Path) (name : String) (bytes : ByteArray) (d' : Disk) : Prop where
  sets : d.Sets d' (root.names ++ [name]) (some (.file bytes))
  workdir : d'.workdir = d.workdir

theorem Writes.isDir {bytes : ByteArray} (h : d.Writes root name bytes d')
    (hdir : d.tree.get? root.names = some .dir) : d'.tree.get? root.names = some .dir := by
  rw [h.sets.get?_of_ne (by simp), hdir]

section

variable (hroot : root.IsCanonical) (hdir : d.tree.get? root.names = some .dir)
  (hname : isEntryName name = true)

include hroot hdir hname

theorem hasNul_entry : (root.child name).hasNul = false := by
  rw [(hroot.child hname).eq_ofPlace, Path.names_entry hname]
  refine Path.hasNul_ofPlace fun n hn => ?_
  rcases List.mem_append.1 hn with hn | hn
  · exact FileTree.isEntryName_of_get? (by rw [hdir]; simp) n hn
  · rwa [List.mem_singleton.1 hn]

/-- With the directory in place it is the file alone that opening has to see to. -/
theorem provide_of_missing (hshort : root.text.utf8ByteSize ≤ maxPathBytes)
    (hmissing : d.isFile (root.child name) = false) :
    OutputStack.provide d (root.child name) = match d.ensureFile (root.child name) with
      | .ok (d, _) => (d, .ok ())
      | .error f => (d, .error f) := by
  have hparents : OutputStack.makeParents d (root.child name) = (d, .ok ()) := by
    unfold OutputStack.makeParents
    rw [parent?_entry hroot hname]
    exact makeDirs_of_isDir (canonical_self hroot hshort hdir).2
  unfold OutputStack.provide
  cases hfile : d.ensureFile (root.child name) <;>
    simp only [hmissing, hparents, hfile, Bool.false_eq_true, if_false]

/-- A path that is too long is refused when all else is done. -/
theorem provide_overlong (htext : maxPathBytes < (root.child name).text.utf8ByteSize)
    (hshort : root.text.utf8ByteSize ≤ maxPathBytes) :
    OutputStack.provide d (root.child name) = (d, .error .nameTooLong) := by
  have hland : ∀ last names, d.land last (root.child name) names = .error .nameTooLong := by
    intro last names
    rw [land, hasNul_entry hroot hdir hname, if_neg (by simp), if_pos htext]
  have hmissing : d.isFile (root.child name) = false := by
    unfold isFile node
    rw [hland]
  have hfails : d.ensureFile (root.child name) = .error .nameTooLong := by
    unfold ensureFile
    rw [hland, hland]
    split <;> rfl
  rw [provide_of_missing hroot hdir hname hshort hmissing, hfails]

variable (htext : (root.child name).text.utf8ByteSize ≤ maxPathBytes)

include htext

/-- The path of an entry leads where the entry is looked for. -/
theorem land_entry (last : LastLink) {l : Landing}
    (hl : d.tree.advance last [] (root.names ++ [name]) = .landed l) :
    d.land last (root.child name) (root.child name).names = .ok l := by
  refine (land_iff (hroot.child hname).isAbsolute).2 ⟨hasNul_entry hroot hdir hname, htext, .here ?_⟩
  rw [Path.names_entry hname, hl]

theorem land_free (hfree : d.tree.get? (root.names ++ [name]) = none) (last : LastLink) :
    d.land last (root.child name) (root.child name).names = .ok (.vacant root.names name) := by
  refine land_entry hroot hdir hname htext last ?_
  rw [FileTree.advance_inward last hroot.clean hdir hname, hfree]
  rfl

theorem land_file {bytes : ByteArray}
    (hfile : d.tree.get? (root.names ++ [name]) = some (.file bytes)) (last : LastLink) :
    d.land last (root.child name) (root.child name).names = .ok (.node (root.names ++ [name])) := by
  refine land_entry hroot hdir hname htext last ?_
  rw [FileTree.advance_inward last hroot.clean hdir hname, hfile]
  exact FileTree.advance_nil _ _ _

theorem read_entry {bytes : ByteArray}
    (hfile : d.tree.get? (root.names ++ [name]) = some (.file bytes)) :
    d.read (root.child name) = .ok bytes := by
  unfold read node
  rw [steps_of_isCanonical (hroot.child hname), land_file hroot hdir hname htext hfile .follow]
  simp only [hfile]

/-- Opening a new file makes it. -/
theorem provide_of_free (hshort : root.text.utf8ByteSize ≤ maxPathBytes)
    (hfree : d.tree.get? (root.names ++ [name]) = none) :
    ∃ d', OutputStack.provide d (root.child name) = (d', .ok ()) ∧
      d.Writes root name .empty d' := by
  have hp := hroot.child hname
  obtain ⟨_, hdot, hdots, _⟩ := isEntryName_iff.1 hname
  have hmissing : d.isFile (root.child name) = false := by
    unfold isFile node
    rw [steps_of_isCanonical hp, land_free hroot hdir hname htext hfree .follow]
  have hown : (root.child name).endsInOwnName = true := by
    simp [Path.endsInOwnName, Path.names_entry hname, hdot, hdots]
  have hend : (root.child name).endsInSeparator = false := by
    rw [hp.eq_ofPlace]
    exact Path.endsInSeparator_ofPlace (fun _ => Path.isStretch_of_mem_names)
      (by simp [Path.names_entry hname])
  refine ⟨_, ?_, sets_add ⟨hdir, hfree, hname⟩ rfl, rfl⟩
  rw [provide_of_missing hroot hdir hname hshort hmissing, ensureFile,
    if_pos (by simp [hown, hend]), land_free hroot hdir hname htext hfree .write]

/-- A file that is there takes more text. -/
theorem append_entry {old : ByteArray} (h : d.Writes root name old d') (bytes : ByteArray) :
    d'.isFile (root.child name) = true ∧
      ∃ e, d'.append (root.child name) bytes = .ok e ∧ d.Writes root name (old ++ bytes) e := by
  have hland := land_file hroot (h.isDir hdir) hname htext h.sets.get? .follow
  rw [← steps_of_isCanonical (hroot.child hname)] at hland
  refine ⟨?_, _, ?_, h.sets.trans (setContent_sets h.sets.get?), h.workdir⟩
  · unfold isFile node
    rw [hland]
    simp only [h.sets.get?]
  · unfold append find
    rw [hland]
    simp only [h.sets.get?]

end

end Disk

/-! ## What is written -/

theorem written_congr {u text : String} (h : Text.trimEnd u = Text.trimEnd text) :
    OutputStack.written u = OutputStack.written text := by
  rw [OutputStack.written, OutputStack.written, h]

theorem produced_cons (text : String) (texts : List String) :
    produced (text :: texts) = OutputStack.written text ++ produced texts := by
  rw [produced, produced, OutputStack.written, List.map_cons, String.join_cons,
    String.toUTF8_eq_toByteArray, String.toByteArray_append]
  rfl

/-! ## The opening -/

/-- The name leads into the working location, if that is the root. -/
theorem Anchors.locate_output {a : Anchors} {root : Path} (hroot : root.IsCanonical)
    (hcwd : a.cwd = root) (haroot : a.root = some root) {name : String} (hname : IsOutputName name)
    (d : Disk) : a.locate d name .file false = .ok (root.child name) := by
  have hp := hroot.child hname.entry
  obtain ⟨⟨⟨hne, hslash⟩, _⟩, _⟩ := isEntryName_iff.1 hname.entry
  have hword : a.locate d name .dir true = .ok (root.child name) := by
    have hletters : name.toList ≠ [] := fun he => hne (String.toList_inj.1 he)
    have h := a.locate_word d hletters
      (by rw [String.ofList_toList]; exact hname.trimmed) (fun c hc => (hname.plain c hc).2)
      ⟨hname.home, fun hhead => hslash (List.mem_of_mem_head? hhead)⟩
    rw [String.ofList_toList, hcwd] at h
    rw [h]
    show Except.ok (root.child name).normalize = .ok (root.child name)
    rw [Path.normalize_eq_ofPlace hp.isAbsolute, hp.fold_names, ← hp.eq_ofPlace]
  have hboundary : a.checkBoundary .file (root.child name) = .ok () := by
    have hself : root.normalize = root := by
      rw [Path.normalize_eq_ofPlace hroot.isAbsolute, hroot.fold_names, ← hroot.eq_ofPlace]
    have hunder : root.isUnder root = true := List.isPrefixOf_iff_prefix.2 (List.prefix_refl _)
    unfold Anchors.checkBoundary
    simp only [haroot, Disk.parent?_entry hroot hname.entry, Option.getD_some, hself, hunder, if_true]
  rw [Anchors.locate_inside, hword]
  simp only [hboundary]

namespace World

variable {w : World} {d : Disk} {root : Path} {name : String}

/-- What the directive leads to is opened, whether it is there or not. -/
theorem openFile_of_locate {p : Path}
    (h : w.session.anchors.locate w.disk name .file false = .ok p) :
    w.openFile name = match w.session.files.push w.disk p with
      | (d, .ok files) =>
        ({ w with disk := d, session.files := files },
          [w.tell .debug .interpreter "opened" [("path", p.text)]])
      | (d, .error f) =>
        { w with disk := d }.skip ("open: failed to open " ++ p.text ++ ": " ++ f.message) := by
  have hfound : w.resolve name .file = .present p ∨ w.resolve name .file = .absent p := by
    unfold resolve Anchors.resolve
    rw [h]
    by_cases hf : w.disk.isFile p = true
    · exact .inl (if_pos hf)
    · exact .inr (if_neg hf)
  unfold openFile
  cases hpush : w.session.files.push w.disk p with
  | mk d told =>
    rcases hfound with hf | hf
    · cases told <;> simp only [hf, hpush]
    · cases told <;> simp only [hf, hpush]

/-- A run is its first line and the rest, in what it does and in what it reports. -/
theorem runLines_cons (w : World) (n : Nat) (line : String) (rest : List String) :
    let v : World := { w with session.line := n + 1 }
    (w.runLines n (line :: rest)).1 = ((v.executeLine line).1.runLines (n + 1) rest).1 ∧
      diagnostics (w.runLines n (line :: rest)).2 =
        v.records line ++ diagnostics ((v.executeLine line).1.runLines (n + 1) rest).2 := by
  intro v
  refine ⟨rfl, ?_⟩
  rw [diagnostics_runLines, diagnostics_runLines]
  rfl

/-- Lines that carry texts add them to the file, one by one. -/
theorem runLines_carries (hroot : root.IsCanonical) (hdir : d.tree.get? root.names = some .dir)
    (hname : isEntryName name = true) (htext : (root.child name).text.utf8ByteSize ≤ maxPathBytes)
    {texts lines : List String} (h : Carries texts lines) {old : ByteArray}
    (hw : d.Writes root name old w.disk) (hfiles : w.session.files.head? = some (root.child name)) :
    ∃ d', d.Writes root name (old ++ produced texts) d' ∧
      (w.runLines w.session.line lines).1 =
        ⟨d', { w.session with line := w.session.line + texts.length }⟩ ∧
      diagnostics (w.runLines w.session.line lines).2 = [] := by
  induction h generalizing w old with
  | nil =>
    have hnone : produced [] = .empty := by decide +kernel
    rw [hnone, ByteArray.append_empty]
    exact ⟨w.disk, hw, rfl, rfl⟩
  | @cons text line u texts lines hline htrim _ ih =>
    obtain ⟨hfile, e, happend, he⟩ :=
      Disk.append_entry hroot hdir hname htext hw (OutputStack.written u)
    have hstep : ({ w with session.line := w.session.line + 1 } : World).executeLine line =
        (⟨e, { w.session with line := w.session.line + 1 }⟩, []) := by
      unfold executeLine writeText OutputStack.write OutputStack.current?
      simp only [hline, hfiles, hfile, happend, if_true]
    obtain ⟨hrun, hreports⟩ := w.runLines_cons w.session.line line lines
    have hquiet : ({ w with session.line := w.session.line + 1 } : World).records line = [] := by
      rw [records, hstep]
      rfl
    rw [hstep] at hrun hreports
    obtain ⟨d', hd', hlater, hlaterquiet⟩ :=
      ih (w := ⟨e, { w.session with line := w.session.line + 1 }⟩) he hfiles
    refine ⟨d', ?_, ?_, ?_⟩
    · rwa [produced_cons, ← written_congr htrim, ← ByteArray.append_assoc]
    · rw [hrun, hlater, List.length_cons, Nat.add_assoc, Nat.add_comm 1]
    · rw [hreports, hquiet, hlaterquiet]
      rfl

/-- Where no file is open, they do nothing. -/
theorem runLines_dropped {texts lines : List String} (h : Carries texts lines)
    (hfiles : w.session.files = []) :
    (w.runLines w.session.line lines).1 =
        ⟨w.disk, { w.session with line := w.session.line + texts.length }⟩ ∧
      diagnostics (w.runLines w.session.line lines).2 = [] := by
  induction h generalizing w with
  | nil => exact ⟨rfl, rfl⟩
  | @cons text line u texts lines hline _ _ ih =>
    let v : World := { w with session.line := w.session.line + 1 }
    have hstep : (v.executeLine line).1 = v ∧ v.records line = [] := by
      unfold records executeLine writeText OutputStack.write OutputStack.current?
      rw [hline, show v.session.files = [] from hfiles]
      exact ⟨rfl, rfl⟩
    obtain ⟨hrun, hreports⟩ := w.runLines_cons w.session.line line lines
    obtain ⟨hlater, hlaterquiet⟩ := ih (w := v) hfiles
    refine ⟨?_, ?_⟩
    · rw [hrun, hstep.1]
      refine hlater.trans ?_
      rw [List.length_cons, Nat.add_comm texts.length, ← Nat.add_assoc]
    · rw [hreports, hstep.1, hstep.2]
      exact hlaterquiet

/-- A line that opens a file does so without a diagnostic, -/
theorem executeLine_opened {p : Path} {d' : Disk} (hquote : '"' ∉ name.toList)
    (h : w.session.anchors.locate w.disk name .file false = .ok p)
    (hp : OutputStack.provide w.disk p = (d', .ok ())) :
    (w.executeLine (openLine name)).1 =
        ⟨d', { w.session with files := p :: w.session.files }⟩ ∧
      w.records (openLine name) = [] := by
  have hpush : w.session.files.push w.disk p = (d', .ok (p :: w.session.files)) := by
    unfold OutputStack.push
    rw [hp]
  unfold records executeLine execute perform
  rw [classify_openLine hquote]
  simp only [openFile_of_locate h, hpush]
  exact ⟨trivial, rfl⟩

/-- or it is skipped, and says why. -/
theorem executeLine_unopened {p : Path} {d' : Disk} {f : Fault} (hquote : '"' ∉ name.toList)
    (h : w.session.anchors.locate w.disk name .file false = .ok p)
    (hp : OutputStack.provide w.disk p = (d', .error f)) :
    (w.executeLine (openLine name)).1 = ⟨d', w.session⟩ ∧
      w.records (openLine name) =
        [⟨w.session.line, .skipped, "open: failed to open " ++ p.text ++ ": " ++ f.message⟩] := by
  have hpush : w.session.files.push w.disk p = (d', .error f) := by
    unfold OutputStack.push
    rw [hp]
  unfold records executeLine execute perform
  rw [classify_openLine hquote]
  simp only [openFile_of_locate h, hpush, skip]
  exact ⟨trivial, rfl⟩

end World

/-! ## Builds -/

namespace Job

variable {job : Job} {d : Disk} {root : Path} {name : String} {texts : List String}

/-- A script in an existing directory is executed there, and then comes the packing. -/
theorem build_of_run {source : String} {w : World}
    (hsource : d.read job.source = .ok source.toUTF8) (hmark : source.toList.head? ≠ some '\uFEFF')
    (hdir : d.isDir job.requestedRoot = true) (hroot : d.canonical job.requestedRoot = .ok root)
    (hrun : ((⟨d, .begin root (some root)⟩ : World).run source).1 = w)
    (hanchor : w.session.anchors.root = some root) :
    (job.build d).disk = (job.pack w.disk root).1 ∧
      (job.build d).result = match (job.pack w.disk root).2.2 with
        | .error e => .error (.package root e)
        | .ok archive => .ok ⟨job.source, root, some root, w.session.line,
            diagnostics ((⟨d, .begin root (some root)⟩ : World).run source).2,
            w.session.files.oldestFirst, archive⟩ := by
  have hprepare : job.prepareRoot d = (d, .ok root) := by
    unfold prepareRoot
    simp only [Disk.makeDirs_of_isDir hdir, hroot]
  have hbuild : job.build d = job.executeIn d root (source, none) := by
    unfold build
    rw [hsource]
    simp only [hprepare, decodeSource_encode hmark]
  rw [hbuild]
  unfold executeIn World.noteReplacement
  cases hpack : job.pack w.disk root with
  | mk d' told =>
    obtain ⟨notes, archive⟩ := told
    cases archive <;> simp only [hrun, hanchor, hpack, Option.getD_some, List.nil_append, and_self]

theorem head?_scriptFor (name : String) (texts : List String) :
    (scriptFor name texts).toList.head? = some '#' := by
  unfold scriptFor openLine
  cases texts <;> simp [String.intercalate_cons_cons]

/-- A script for any texts writes just these, and has nothing to report. -/
theorem build_scriptFor (hsource : d.read job.source = .ok (scriptFor name texts).toUTF8)
    (hdir : d.isDir job.requestedRoot = true) (hroot : d.canonical job.requestedRoot = .ok root)
    (hname : IsOutputName name) (hfree : d.tree.get? (root.names ++ [name]) = none)
    (htext : (root.child name).text.utf8ByteSize ≤ maxPathBytes)
    (htexts : ∀ text ∈ texts, '\n' ∉ text.toList) :
    ∃ d', d.Writes root name (produced texts) d' ∧
      (job.build d).disk = (job.pack d' root).1 ∧
      ((job.build d).result = match (job.pack d' root).2.2 with
        | .error e => .error (.package root e)
        | .ok archive => .ok ⟨job.source, root, some root, texts.length + 1, [],
            [root.child name], archive⟩) ∧
      (job.wantsPackage = false → (job.build d).disk = d' ∧
        ∃ built, (job.build d).result = .ok built ∧ built.diagnostics = []) := by
  obtain ⟨hcanonical, hshort, hget⟩ := Disk.isDir_of_canonical hdir hroot
  obtain ⟨lines, hlines, hcarries⟩ := carries_scriptFor hname.newline htexts
  obtain ⟨e, he, hempty⟩ := Disk.provide_of_free hcanonical hget hname.entry htext hshort hfree
  -- The opening, and then the texts.
  let w : World := ⟨d, .begin root (some root)⟩
  let v : World := { w with session.line := 1 }
  have hlocate := Anchors.locate_output (a := v.session.anchors) hcanonical rfl rfl hname d
  obtain ⟨hopened, hquiet⟩ := World.executeLine_opened (w := v) hname.quote hlocate he
  obtain ⟨d', hd', hwritten, hwrittenquiet⟩ := World.runLines_carries hcanonical hget hname.entry htext
    hcarries (w := ⟨e, { v.session with files := [root.child name] }⟩) hempty rfl
  obtain ⟨hrun, hreports⟩ := w.runLines_cons 0 (openLine name) lines
  have hworld : (w.run (scriptFor name texts)).1 =
      ⟨d', { v.session with files := [root.child name], line := texts.length + 1 }⟩ := by
    unfold World.run
    rw [hlines, hrun, hopened, Nat.add_comm texts.length]
    exact hwritten
  have hsilent : diagnostics (w.run (scriptFor name texts)).2 = [] := by
    unfold World.run
    rw [hlines, hreports, hquiet, hopened]
    exact hwrittenquiet
  obtain ⟨hdisk, hresult⟩ := build_of_run hsource (by rw [head?_scriptFor]; decide) hdir hroot hworld rfl
  rw [hsilent] at hresult
  rw [ByteArray.empty_append] at hd'
  refine ⟨d', hd', hdisk, hresult, fun hplain => ?_⟩
  have hpack : job.pack d' root = (d', [], .ok none) := by
    unfold pack
    rw [if_neg (by simp [hplain])]
  rw [hpack] at hdisk hresult
  exact ⟨hdisk, _, hresult, rfl⟩

/-- Texts that look like something else: a directive, blanks, a marked line, spaces in front,
and a carriage return at the end. -/
theorem build_scriptFor_lookalikes :
    let texts := ["#> close", " \t", "## x", "  y \r", "#"]
    let t := (FileTree.empty.add [] "t" .dir).add [] "s" (.file (scriptFor "a b" texts).toUTF8)
    let d : Disk := ⟨t, ⟨[], 0⟩⟩
    let job : Job := ⟨(⟨"/"⟩ : Path).child "s", some ⟨"/t"⟩, false, none⟩
    (d.read job.source = .ok (scriptFor "a b" texts).toUTF8 ∧ d.isDir job.requestedRoot = true ∧
      d.canonical job.requestedRoot = .ok ⟨"/t"⟩ ∧ IsOutputName "a b" ∧
      d.tree.get? ((⟨"/t"⟩ : Path).names ++ ["a b"]) = none ∧
      ((⟨"/t"⟩ : Path).child "a b").text.utf8ByteSize ≤ maxPathBytes ∧
      ∀ text ∈ texts, '\n' ∉ text.toList) ∧
    (job.build d).disk.tree.get? ["t", "a b"] = some (.file "#> close\n\n## x\n  y\n#\n".toUTF8) := by
  intro texts t d job
  have htop : (Path.ofPlace []).IsCanonical := Path.isCanonical_ofPlace (by simp)
  have hroot : (Path.ofPlace ["t"]).IsCanonical := Path.isCanonical_ofPlace (by decide +kernel)
  have hnames : (⟨"/t"⟩ : Path).names = ["t"] := by decide +kernel
  have hsource : d.read job.source = .ok (scriptFor "a b" texts).toUTF8 :=
    Disk.read_entry htop (by decide +kernel) (by decide +kernel) (by decide +kernel) (by decide +kernel)
  obtain ⟨hcanonical, hdir⟩ := Disk.canonical_self (d := d) hroot (by decide +kernel) (by decide +kernel)
  have hletters : ("a b".toList.all fun c => c ≠ '\n' && c ≠ '\\' && c ≠ ':' && c ∉ reservedChars) = true := by
    decide +kernel
  have hname : IsOutputName "a b" :=
    ⟨by decide +kernel, fun c hc => by simpa [and_assoc] using List.all_eq_true.1 hletters c hc,
      by decide +kernel, by decide +kernel⟩
  have hfree : d.tree.get? ((⟨"/t"⟩ : Path).names ++ ["a b"]) = none := by decide +kernel
  have htext : ((⟨"/t"⟩ : Path).child "a b").text.utf8ByteSize ≤ maxPathBytes := by decide +kernel
  have htexts : ∀ text ∈ texts, '\n' ∉ text.toList := by decide +kernel
  refine ⟨⟨hsource, hdir, hcanonical, hname, hfree, htext, htexts⟩, ?_⟩
  obtain ⟨d', hwrites, _, _, hplain⟩ :=
    @build_scriptFor job d _ _ _ hsource hdir hcanonical hname hfree htext htexts
  have hproduced : produced texts = "#> close\n\n## x\n  y\n#\n".toUTF8 := by decide +kernel
  have hwritten := hwrites.sets.get?
  rw [hproduced, show (Path.ofPlace ["t"]).names = ["t"] from hnames] at hwritten
  rw [(hplain rfl).1]
  exact hwritten

/-- A path that is too long has the opening skipped, and the texts go nowhere. -/
theorem build_scriptFor_overlong (hsource : d.read job.source = .ok (scriptFor name texts).toUTF8)
    (hdir : d.isDir job.requestedRoot = true) (hroot : d.canonical job.requestedRoot = .ok root)
    (hname : IsOutputName name) (htext : maxPathBytes < (root.child name).text.utf8ByteSize)
    (htexts : ∀ text ∈ texts, '\n' ∉ text.toList) :
    (job.build d).disk = (job.pack d root).1 ∧
      (job.build d).result = match (job.pack d root).2.2 with
        | .error e => .error (.package root e)
        | .ok archive => .ok ⟨job.source, root, some root, texts.length + 1,
            [⟨1, .skipped, "open: failed to open " ++ (root.child name).text ++ ": " ++
              Fault.nameTooLong.message⟩], [], archive⟩ := by
  obtain ⟨hcanonical, hshort, hget⟩ := Disk.isDir_of_canonical hdir hroot
  obtain ⟨lines, hlines, hcarries⟩ := carries_scriptFor hname.newline htexts
  have hfails := Disk.provide_overlong hcanonical hget hname.entry htext hshort
  let w : World := ⟨d, .begin root (some root)⟩
  let v : World := { w with session.line := 1 }
  have hlocate := Anchors.locate_output (a := v.session.anchors) hcanonical rfl rfl hname d
  obtain ⟨hskipped, hreport⟩ := World.executeLine_unopened (w := v) hname.quote hlocate hfails
  obtain ⟨hdropped, hquiet⟩ := World.runLines_dropped hcarries (w := v) rfl
  obtain ⟨hrun, hreports⟩ := w.runLines_cons 0 (openLine name) lines
  have hworld : (w.run (scriptFor name texts)).1 =
      ⟨d, { v.session with line := texts.length + 1 }⟩ := by
    unfold World.run
    rw [hlines, hrun, hskipped, Nat.add_comm texts.length]
    exact hdropped
  have htold : diagnostics (w.run (scriptFor name texts)).2 = [⟨1, .skipped,
      "open: failed to open " ++ (root.child name).text ++ ": " ++ Fault.nameTooLong.message⟩] := by
    unfold World.run
    rw [hlines, hreports, hreport, hskipped]
    exact congrArg (_ :: ·) hquiet
  obtain ⟨hdisk, hresult⟩ := build_of_run hsource (by rw [head?_scriptFor]; decide) hdir hroot hworld rfl
  rw [htold] at hresult
  exact ⟨hdisk, hresult⟩

/-- In the last of some directories in each other nothing is opened by a name with which the
path is too long. -/
theorem build_scriptFor_chain {dir : String} (hentry : isEntryName dir = true) (hother : dir ≠ "s")
    (hname : IsOutputName name) {k : Nat} (hk : 0 < k)
    (hshort : k * (dir.utf8ByteSize + 1) ≤ maxPathBytes)
    (hlong : maxPathBytes < k * (dir.utf8ByteSize + 1) + name.utf8ByteSize + 1)
    (htexts : ∀ text ∈ texts, '\n' ∉ text.toList) (w : Workdir) :
    let script := scriptFor name texts
    let d : Disk := ⟨(FileTree.chain dir k).add [] "s" (.file script.toUTF8), w⟩
    let root := Path.ofPlace (List.replicate k dir)
    let job : Job := ⟨(⟨"/"⟩ : Path).child "s", some root, false, none⟩
    (d.read job.source = .ok script.toUTF8 ∧ d.isDir job.requestedRoot = true ∧
      d.canonical job.requestedRoot = .ok root ∧ IsOutputName name ∧
      d.tree.get? (root.names ++ [name]) = none ∧ ∀ text ∈ texts, '\n' ∉ text.toList) ∧
    (job.build d).disk.tree.get? (root.names ++ [name]) = none ∧
      ∃ built, (job.build d).result = .ok built ∧ built.diagnostics ≠ [] := by
  obtain ⟨k, rfl⟩ : ∃ m, k = m + 1 := ⟨k - 1, by omega⟩
  intro script d root job
  have hget : ∀ q, d.tree.get? q =
      if q = ["s"] then some (.file script.toUTF8) else (FileTree.chain dir (k + 1)).get? q := by
    have hs : isEntryName "s" = true := by decide +kernel
    refine FileTree.get?_add ?_
    simp [FileTree.admits, FileTree.isDir, FileTree.get?_chain hentry, hother.symm, hs,
      Node.isStorable]
  have hplace : ∀ n ∈ List.replicate (k + 1) dir, isEntryName n = true := by
    intro n hm
    rwa [List.eq_of_mem_replicate hm]
  have hroot : root.IsCanonical := Path.isCanonical_ofPlace hplace
  have hnames : root.names = List.replicate (k + 1) dir := Path.names_ofEntries hplace
  have hsize : root.text.utf8ByteSize = (k + 1) * (dir.utf8ByteSize + 1) :=
    Path.size_ofPlace_replicate dir k
  have htext : maxPathBytes < (root.child name).text.utf8ByteSize := by
    rw [hroot.child_eq (isStretch_of_isEntryName hname.entry), Path.size_ofPlace_concat,
      ← hroot.eq_ofPlace, hsize, hnames, if_neg (by simp)]
    exact hlong
  have hdir : d.tree.get? root.names = some .dir := by
    rw [hget, hnames, if_neg, FileTree.get?_chain hentry]
    · simp
    · rw [List.replicate_succ, List.cons.injEq]
      exact fun h => hother h.1
  have hfree : d.tree.get? (root.names ++ [name]) = none := by
    rw [hget, hnames, if_neg (by simp [List.replicate_succ]), FileTree.get?_chain hentry, if_neg]
    rintro ⟨hdeep, _⟩
    rw [List.length_append, List.length_replicate, List.length_singleton] at hdeep
    omega
  have hsource : d.read job.source = .ok script.toUTF8 := by
    have htop : (Path.ofPlace []).IsCanonical := Path.isCanonical_ofPlace (by simp)
    refine Disk.read_entry htop ?_ (by decide +kernel) (by decide +kernel) ?_
    · exact (hget []).trans (by simp)
    · exact (hget ["s"]).trans (if_pos rfl)
  obtain ⟨hcanonical, hisDir⟩ := Disk.canonical_self hroot (hsize ▸ hshort) hdir
  obtain ⟨hdisk, hresult⟩ :=
    @build_scriptFor_overlong job d _ _ _ hsource hisDir hcanonical hname htext htexts
  refine ⟨⟨hsource, hisDir, hcanonical, hname, hfree, htexts⟩, ?_, _, hresult, by simp⟩
  rw [hdisk]
  exact hfree

/-- So it is with sixteen directories that have names of 240 bytes, and a file that has one
of 255. -/
theorem build_scriptFor_fails :
    let script := scriptFor (longName 255) ["x"]
    let d : Disk := ⟨(FileTree.chain (longName 240) 16).add [] "s" (.file script.toUTF8), ⟨[], 0⟩⟩
    let root := Path.ofPlace (List.replicate 16 (longName 240))
    let job : Job := ⟨(⟨"/"⟩ : Path).child "s", some root, false, none⟩
    (d.read job.source = .ok script.toUTF8 ∧ d.isDir job.requestedRoot = true ∧
      d.canonical job.requestedRoot = .ok root ∧ IsOutputName (longName 255) ∧
      d.tree.get? (root.names ++ [longName 255]) = none ∧ ∀ text ∈ ["x"], '\n' ∉ text.toList) ∧
    (job.build d).disk.tree.get? (root.names ++ [longName 255]) = none ∧
      ∃ built, (job.build d).result = .ok built ∧ built.diagnostics ≠ [] := by
  have hletter : ∀ c ∈ (longName 255).toList, c = 'n' := by
    intro c hc
    rw [toList_longName] at hc
    exact List.eq_of_mem_replicate hc
  have hname : IsOutputName (longName 255) := by
    refine ⟨isEntryName_longName (by decide) (by decide), fun c hc => ?_, fun hhome => ?_,
      Text.trim_of_plain fun c hc => ?_⟩
    · rw [hletter c hc]
      decide
    · exact absurd (hletter _ (List.mem_of_mem_head? hhome)) (by decide)
    · rw [hletter c hc]
      decide
  have hother : longName 240 ≠ "s" := by
    intro he
    have hsize := congrArg String.utf8ByteSize he
    rw [size_longName] at hsize
    exact absurd hsize (by decide)
  have hshort : 16 * ((longName 240).utf8ByteSize + 1) ≤ maxPathBytes := by
    rw [size_longName]
    decide
  have hlong : maxPathBytes < 16 * ((longName 240).utf8ByteSize + 1) + (longName 255).utf8ByteSize + 1 := by
    rw [size_longName, size_longName]
    decide
  exact build_scriptFor_chain (isEntryName_longName (by decide) (by decide)) hother hname (by decide)
    hshort hlong (by decide +kernel) ⟨[], 0⟩

end Job

end Datapack
