import Datapack.Proofs.Anchored
import Datapack.Proofs.Depth
import Datapack.Proofs.Diagnostics
import Datapack.Proofs.Paving

/-
  Datapack.Proofs.Skipping — what a skipped line leaves on the disk.

  A line that is skipped did nothing on the disk, with two exceptions besides `init`: a
  `mkdir` and an `open` come to their last call, which can fail, after they have made the
  directories above. So they may leave directories behind that were not there, all of them
  along the path above and none where that path led to a directory before; nothing else is
  touched (`World.LeavesParents`, `skipped_leaves_disk`).

  They do leave them. A last name that is too long is found out last, so wherever the
  directories above are missing and can be made, a `mkdir` is skipped and they are there
  from then on (`overlong_mkdir_leaves_parents`). A session in which a line does that can
  be reached (`skipped_mkdir_leaves_parent`).
-/

namespace Datapack

open Script

namespace World

def Makes (w : World) (line : String) (p : Path) : Prop :=
  match classify line with
  | .directive (.mkdir raw) => w.resolve raw .dir = .absent p
  | .directive (.open raw) => (w.resolve raw .file).path? = some p
  | _ => False

/-- The disk is as it was but for directories along the path above one that the line was
to make something at, where that path led to none. -/
def LeavesParents (w : World) (line : String) (d : Disk) : Prop :=
  ∃ p above, w.Makes line p ∧ p.parent? = some above ∧ w.disk.isDir above = false ∧
    w.disk.Paves above d

theorem Does.disk_of_skipped {w w' : World} {line : String} {d : Directive}
    {kinds : List DiagnosticKind} (ha : w.session.anchors.Absolute)
    (hline : classify line = .directive d) (hinit : ∀ ns format description, d ≠ .init ns format description)
    (h : w.Does d w' kinds) (hk : .skipped ∈ kinds) :
    w'.disk = w.disk ∨ w.LeavesParents line w'.disk := by
  cases h with
  | skipped => exact .inl rfl
  | initFailed => exact absurd rfl (hinit _ _ _)
  | @mkdirFailed raw p f hp hf =>
    have hcanonical := isCanonical_of_resolve ha (resolve_path?_of_absent hp)
    have hmakes : w.Makes line p := by
      unfold Makes
      rw [hline]
      exact hp
    by_cases habove : ∃ q, p.parent? = some q ∧ w.disk.isDir q = false
    · obtain ⟨above, hparent, hdir⟩ := habove
      have hpaves := Disk.paves_of_makeDirs_failed hcanonical hparent hf
      exact .inr ⟨p, above, hmakes, hparent, hdir, hpaves⟩
    · refine .inl (Disk.makeDirs_failed hcanonical ?_ hf)
      intro q hq
      by_cases hdir : w.disk.isDir q = true
      · exact hdir
      · exact absurd ⟨q, hq, by simpa using hdir⟩ habove
  | @openFailed raw p f hp hf =>
    have hcanonical := isCanonical_of_resolve ha hp
    have hmakes : w.Makes line p := by
      unfold Makes
      rw [hline]
      exact hp
    rcases Disk.provide_failed_cases hcanonical hf with hsame | ⟨above, hparent, hdir, hpaves⟩
    · exact .inl hsame
    · exact .inr ⟨p, above, hmakes, hparent, hdir, hpaves⟩
  | rootUnset | root | home | sethomeHere | sethome | init | cd | mkdir | rmdir | clear | «open» | close
    | del | log => simp at hk

end World

/-! ## Directories that are left -/

/-- A `mkdir` with a last name that is too long is skipped, and has made the directories
above, if nothing was there. -/
theorem overlong_mkdir_leaves_parents {w : World} (hd : w.disk.tree.LinkFree)
    (ha : w.session.anchors.Absolute) {line raw : String} {p above : Path} {name : String}
    (hline : classify line = .directive (.mkdir raw)) (hp : w.resolve raw .dir = .absent p)
    (habove : p.parent? = some above) (hclears : w.disk.Clears above)
    (hmissing : w.disk.tree.get? above.names = none) (hnul : p.hasNul = false)
    (htext : p.text.utf8ByteSize ≤ maxPathBytes) (hname : p.names.getLast? = some name)
    (hlong : maxNameBytes < name.utf8ByteSize) :
    (w.records line).map Diagnostic.kind = [.skipped] ∧
      w.disk.Paved above.names (w.executeLine line).1.disk := by
  have hcanonical := World.isCanonical_of_resolve ha (World.resolve_path?_of_absent hp)
  obtain ⟨hfails, hpaved⟩ := Disk.makeDirs_overlong hd hcanonical.isClean habove hclears hmissing
    hnul htext hname hlong
  have hstep : w.executeLine line = w.execute (.mkdir raw) := by
    unfold World.executeLine
    rw [hline]
  have hskips : w.makeDir raw = World.skip { w with disk := (w.disk.makeDirs p).1 }
      ("mkdir: failed to create " ++ p.text ++ ": " ++ Fault.nameTooLong.message) := by
    unfold World.makeDir
    rw [hp]
    simp only
    split
    · rename_i hmade
      rw [hmade] at hfails
      cases hfails
    · rename_i hmade
      rw [hmade] at hfails
      cases hfails
      rw [hmade]
  rw [w.records_kinds line, hstep, World.execute, World.diagnosticKinds_tell, World.perform, hskips]
  exact ⟨rfl, hpaved⟩

/-! ### A session in which that happens -/

/-- A text without blanks and quotes is one argument. -/
theorem tokenize_plain {word : List Char} (hne : word ≠ [])
    (h : ∀ c ∈ word, Text.isBlank c = false ∧ isQuote c = false) :
    tokenize (String.ofList word) = [String.ofList word] := by
  obtain ⟨c, cs, rfl⟩ := List.exists_cons_of_ne_nil hne
  obtain ⟨hblank, hquote⟩ := h c List.mem_cons_self
  have hrest := tokensFrom_plain (fun c hc => h c (List.mem_cons_of_mem _ hc)) [c] []
  rw [List.append_nil] at hrest
  unfold tokenize
  rw [String.toList_ofList, tokensFrom]
  simp [hblank, hquote, hrest, tokensFrom]

theorem classify_mkdir {word : List Char} (hne : word ≠ [])
    (h : ∀ c ∈ word, Text.isBlank c = false ∧ isQuote c = false) :
    classify (String.ofList ("#> mkdir ".toList ++ word)) = .directive (.mkdir (String.ofList word)) := by
  have hmarked : Text.after? directiveMarker (String.ofList ("#> mkdir ".toList ++ word)) =
      some (String.ofList ("mkdir ".toList ++ word)) := by
    unfold Text.after?
    rw [String.toList_ofList]
    rfl
  have hsplit : splitName (String.ofList ("mkdir ".toList ++ word)) =
      ("mkdir", String.ofList word) := by
    unfold splitName
    rw [String.toList_ofList]
    rfl
  have hbody : Text.trimStart (String.ofList ("mkdir ".toList ++ word)) =
      String.ofList ("mkdir ".toList ++ word) := by
    unfold Text.trimStart
    rw [String.toList_ofList]
    rfl
  have hsome : String.ofList ("mkdir ".toList ++ word) ≠ "" := by
    rw [ne_eq, ← String.toList_inj, String.toList_ofList]
    simp
  have hparse : Directive.parse "mkdir" (String.ofList word) =
      .ok (some (.mkdir (String.ofList word))) := by
    unfold Directive.parse
    simp only [Directive.ofPath, tokenize_plain hne h]
    rfl
  unfold classify
  rw [if_neg, hmarked]
  · simp only [Line.ofMarked]
    rw [hbody, if_neg hsome, hsplit]
    simp only [hparse]
  · have hfirst : Text.isBlank '#' = false := rfl
    rw [String.toList_ofList]
    simp [hfirst]

/-- A word without blanks is not trimmed. -/
theorem Anchors.locate_plain (a : Anchors) (d : Disk) {word : List Char} (hne : word ≠ [])
    (h : ∀ c ∈ word, Text.isBlank c = false ∧ c ≠ '\\' ∧ c ≠ ':' ∧ c ∉ reservedChars)
    (hfirst : word.head? ≠ some '~' ∧ word.head? ≠ some '/') :
    a.locate d (String.ofList word) .dir true = .ok (a.cwd.join ⟨String.ofList word⟩).normalize := by
  refine a.locate_word d hne (Text.trim_of_plain ?_) (fun c hc => (h c hc).2) hfirst
  rw [String.toList_ofList]
  exact fun c hc => (h c hc).1

def longWord (n : Nat) : List Char := "a/".toList ++ List.replicate n 'n'

def longMkdir (n : Nat) : String := String.ofList ("#> mkdir ".toList ++ longWord n)

/-- None of its characters is a special one. -/
theorem longWord_plain (n : Nat) : ∀ c ∈ longWord n,
    (Text.isBlank c = false ∧ isQuote c = false) ∧ c ≠ '\\' ∧ c ≠ ':' ∧ c ∉ reservedChars := by
  intro c hc
  have htext : longWord n = 'a' :: '/' :: List.replicate n 'n' := rfl
  have hletter : c = 'a' ∨ c = '/' ∨ c = 'n' := by
    rw [htext, List.mem_cons, List.mem_cons] at hc
    exact hc.imp_right (Or.imp_right List.eq_of_mem_replicate)
  rcases hletter with rfl | rfl | rfl <;> decide

theorem classify_longMkdir (n : Nat) :
    classify (longMkdir n) = .directive (.mkdir (String.ofList (longWord n))) :=
  classify_mkdir (by simp [longWord]) fun c hc => (longWord_plain n c hc).1

/-- The directory of the session, and the one in it that is missing. -/
theorem start_paths :
    ((⟨"/p"⟩ : Path).isAbsolute = true ∧ (⟨"/p"⟩ : Path).names = ["p"] ∧
      (⟨"/p"⟩ : Path).normalize.components = ["/", "p"]) ∧
    (⟨"/p/a"⟩ : Path) = .ofPlace ["p", "a"] ∧ (⟨"/p/a"⟩ : Path).names = ["p", "a"] ∧
      (⟨"/p/a"⟩ : Path).hasNul = false ∧ (⟨"/p/a"⟩ : Path).text.utf8ByteSize ≤ maxPathBytes ∧
      ∀ name ∈ ["p", "a"], name.utf8ByteSize ≤ maxNameBytes := by decide +kernel

/-- The names on the way to the long one, and that one itself. -/
theorem names_plain {n : Nat} (hn : 2 < n) :
    ∀ name ∈ ["p", "a", longName n], Path.IsStretch name ∧ name ≠ "." ∧ name ≠ ".." := by
  intro name hm
  simp only [List.mem_cons, List.not_mem_nil, or_false] at hm
  rcases hm with rfl | rfl | rfl
  · exact ⟨⟨by decide, by decide⟩, by decide, by decide⟩
  · exact ⟨⟨by decide, by decide⟩, by decide, by decide⟩
  · exact isStretch_longName hn

/-- From `/p` the argument leads to the directory `a` there, and in that to the long name. -/
theorem names_longWord {n : Nat} (hn : 2 < n) :
    ((⟨"/p"⟩ : Path).join ⟨String.ofList (longWord n)⟩).names = ["p", "a", longName n] := by
  have hword : (⟨String.ofList (longWord n)⟩ : Path).names = ["a", longName n] := by
    have hcut := Path.names_separated ['a'] (List.replicate n 'n')
    have hlast := Path.names_of_isStretch (isStretch_longName hn).1
    have hfirst : (⟨String.ofList ['a']⟩ : Path).names = ["a"] :=
      Path.names_of_isStretch (names_plain hn "a" (by simp)).1
    rw [hfirst] at hcut
    exact hcut.trans (congrArg (["a"] ++ ·) hlast)
  rw [Path.names_join, start_paths.1.2.1, hword]
  · rfl
  · rw [Path.isAbsolute, String.toList_ofList]
    simp [longWord]

def atEmpty : World :=
  ⟨⟨FileTree.empty.add [] "p" .dir, ⟨[], 0⟩⟩, .begin ⟨"/p"⟩ (some ⟨"/p"⟩)⟩

theorem reachable_atEmpty : Session.Reachable ⟨"/p"⟩ atEmpty.session := .begin

theorem linkFree_atEmpty : atEmpty.disk.tree.LinkFree :=
  FileTree.linkFree_empty.add [] "p" (by simp)

theorem absolute_atEmpty : atEmpty.session.anchors.Absolute :=
  (anchored_of_reachable start_paths.1.1 reachable_atEmpty).absolute

theorem get?_atEmpty : atEmpty.disk.tree.get? ["p", "a"] = none ∧
    ∀ n ≤ 2, atEmpty.disk.tree.get? (["p", "a"].take n) = none ∨
      atEmpty.disk.tree.get? (["p", "a"].take n) = some .dir := by decide +kernel

def longPath (n : Nat) : Path := .ofPlace ["p", "a", longName n]

theorem names_longPath {n : Nat} (hn : 2 < n) : (longPath n).names = ["p", "a", longName n] :=
  Path.names_ofPlace fun name hm => (names_plain hn name hm).1

theorem isCanonical_longPath {n : Nat} (hn : 2 < n) : (longPath n).IsCanonical := by
  refine ⟨by rw [names_longPath hn, longPath], ?_⟩
  rw [names_longPath hn]
  exact fun name hm => (names_plain hn name hm).2

theorem resolve_longWord {n : Nat} (hn : 2 < n) :
    atEmpty.resolve (String.ofList (longWord n)) .dir = .absent (longPath n) := by
  have hcanonical := isCanonical_longPath hn
  have houtside : atEmpty.session.anchors.locate atEmpty.disk (String.ofList (longWord n)) .dir true =
      .ok (longPath n) := by
    have hplain : ∀ c ∈ longWord n, Text.isBlank c = false ∧ c ≠ '\\' ∧ c ≠ ':' ∧ c ∉ reservedChars :=
      fun c hc => ⟨(longWord_plain n c hc).1.1, (longWord_plain n c hc).2⟩
    rw [Anchors.locate_plain _ _ (by simp [longWord]) hplain (by simp [longWord])]
    have hnames : Path.fold (atEmpty.session.anchors.cwd.join ⟨String.ofList (longWord n)⟩).names =
        ["p", "a", longName n] := by
      have hclean := hcanonical.clean
      rw [names_longPath hn] at hclean
      exact (congrArg Path.fold (names_longWord hn)).trans (Path.fold_of_clean hclean)
    rw [Path.normalize_eq_ofPlace, hnames]
    · rfl
    · rw [Path.isAbsolute_join, absolute_atEmpty.cwd, Bool.true_or]
  have hboundary : atEmpty.session.anchors.checkBoundary .dir (longPath n) = .ok () := by
    rw [Anchors.checkBoundary_dir (r := ⟨"/p"⟩) rfl, if_pos]
    rw [Path.components_of_isAbsolute hcanonical.isAbsolute, names_longPath hn]
    rw [start_paths.1.2.2]
    exact ⟨["a", longName n], rfl⟩
  have hnot : atEmpty.disk.isDir (longPath n) = false := by
    refine Bool.eq_false_iff.2 fun hdir => ?_
    have hget := ((Disk.isDir_iff linkFree_atEmpty hcanonical.isClean).1 hdir).2.2
    rw [names_longPath hn] at hget
    have habove := Disk.isDir_along hget (q := ["p", "a"]) ⟨[longName n], rfl⟩
    rw [get?_atEmpty.1] at habove
    cases habove
  unfold World.resolve Anchors.resolve
  rw [Anchors.locate_inside, houtside]
  simp only [hboundary, hnot]
  rfl

theorem clears_above : atEmpty.disk.Clears ⟨"/p/a"⟩ := by
  obtain ⟨-, -, hnames, hnul, htext, hshort⟩ := start_paths
  refine ⟨hnul, htext, by rwa [hnames], ?_⟩
  rw [hnames]
  intro q hq
  rw [List.prefix_iff_eq_take.1 hq]
  exact get?_atEmpty.2 q.length hq.length_le

theorem hasNul_longPath (n : Nat) : (longPath n).hasNul = false := by
  have htext : (longPath n).text.toList = "/p/a/".toList ++ List.replicate n 'n' := by
    simp [longPath, Path.ofPlace, Path.ofNames, longName]
  unfold Path.hasNul
  rw [htext, List.contains_eq_mem, decide_eq_false_iff_not, List.mem_append, List.mem_replicate]
  simp

/-- Any name that is too long will do, if the path is none. -/
theorem longMkdir_leaves_parent {n : Nat} (hn : maxNameBytes < (longName n).utf8ByteSize)
    (hletters : 2 < n) (htext : (longPath n).text.utf8ByteSize ≤ maxPathBytes) :
    (atEmpty.records (longMkdir n)).map Diagnostic.kind = [.skipped] ∧
      atEmpty.disk.Paved ["p", "a"] (atEmpty.executeLine (longMkdir n)).1.disk := by
  have hparent : (longPath n).parent? = some ⟨"/p/a"⟩ := by
    rw [(isCanonical_longPath hletters).parent?, names_longPath hletters, if_neg (by simp)]
    exact congrArg some start_paths.2.1.symm
  have hnames := start_paths.2.2.1
  have hmissing : atEmpty.disk.tree.get? (⟨"/p/a"⟩ : Path).names = none := by
    rw [hnames]
    exact get?_atEmpty.1
  have h := overlong_mkdir_leaves_parents linkFree_atEmpty absolute_atEmpty (classify_longMkdir n)
    (resolve_longWord hletters) hparent clears_above hmissing (hasNul_longPath n) htext
    (by rw [names_longPath hletters]; rfl) hn
  rwa [hnames] at h

theorem longMkdir_ne_init (n : Nat) : ∀ ns format description,
    classify (longMkdir n) ≠ .directive (.init ns format description) := by
  intro ns format description hline
  rw [classify_longMkdir] at hline
  cases hline

theorem skipped_longMkdir : .skipped ∈ (atEmpty.records (longMkdir 256)).map Diagnostic.kind ∧
    (atEmpty.executeLine (longMkdir 256)).1.disk.tree.get? ["p", "a"] = some .dir := by
  obtain ⟨hkinds, hpaved⟩ :=
    longMkdir_leaves_parent (n := 256) (by rw [size_longName]; decide) (by decide) (by decide +kernel)
  refine ⟨?_, ?_⟩
  · rw [hkinds]
    exact List.mem_singleton.2 rfl
  · rw [hpaved ["p", "a"], if_pos (List.prefix_refl _)]

/-! ## Any line -/

/-- A skipped line other than an `init` has left the disk alone, unless it was to make
something in a directory that was missing: then it has made, of that directory and those
above it, as many as it could, and done nothing else. -/
theorem skipped_leaves_disk {w : World} (ha : w.session.anchors.Absolute) {line : String}
    (hinit : ∀ ns format description, classify line ≠ .directive (.init ns format description))
    (hskip : .skipped ∈ (w.records line).map Diagnostic.kind) :
    (w.executeLine line).1.disk = w.disk ∨ w.LeavesParents line (w.executeLine line).1.disk := by
  rw [w.records_kinds line] at hskip
  rcases w.executeLine_reports line with ⟨d, hd, hdoes⟩ | hsilent | ⟨message, hmessage⟩
  · refine hdoes.disk_of_skipped ha hd ?_ hskip
    rintro ns format description rfl
    exact hinit ns format description hd
  · rw [hsilent] at hskip
    cases hskip
  · left
    rw [hmessage]
    rfl

/-- There the directory above is what is left, and nothing else. -/
theorem skipped_leaves_disk_overlong :
    (atEmpty.session.anchors.Absolute ∧
      (∀ ns format description,
        classify (longMkdir 256) ≠ .directive (.init ns format description)) ∧
      .skipped ∈ (atEmpty.records (longMkdir 256)).map Diagnostic.kind) ∧
    atEmpty.LeavesParents (longMkdir 256) (atEmpty.executeLine (longMkdir 256)).1.disk := by
  have hinit := longMkdir_ne_init 256
  obtain ⟨hskip, hmade⟩ := skipped_longMkdir
  refine ⟨⟨absolute_atEmpty, hinit, hskip⟩, ?_⟩
  rcases skipped_leaves_disk absolute_atEmpty hinit hskip with hsame | hleaves
  · have hbefore : atEmpty.disk.tree.get? ["p", "a"] = none := by decide +kernel
    rw [hsame, hbefore] at hmade
    cases hmade
  · exact hleaves

/-- So a reachable session skips a line, and has a new directory on its disk. -/
theorem skipped_mkdir_leaves_parent :
    Session.Reachable ⟨"/p"⟩ atEmpty.session ∧
    (∀ ns format description,
      classify (longMkdir 256) ≠ .directive (.init ns format description)) ∧
    .skipped ∈ (atEmpty.records (longMkdir 256)).map Diagnostic.kind ∧
    atEmpty.disk.tree.get? ["p", "a"] = none ∧
    (atEmpty.executeLine (longMkdir 256)).1.disk.tree.get? ["p", "a"] = some .dir :=
  ⟨reachable_atEmpty, longMkdir_ne_init 256, skipped_longMkdir.1, by decide +kernel,
    skipped_longMkdir.2⟩

end Datapack
