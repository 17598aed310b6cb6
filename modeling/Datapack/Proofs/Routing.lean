import Datapack.Proofs.Effects
import Datapack.Proofs.Files

/-
  Datapack.Proofs.Routing — every content line reaches the file on top, and no other.

  Most directives neither write into a file nor take one away (`leavesContents`). In a
  run with no other directive the paths on the stack of open files stay those of regular
  files, to which text can be added (`World.Routing`): an opening that succeeds puts such
  a path on the stack, one that fails leaves the stack alone. So each content line adds
  its text to the file on top, whatever was opened, closed and opened again before, and
  to no other file (`Routing.executeLine`).

  Along a whole run, every file ends as what it was at first and then, in the order of
  the lines, what was sent while it was on top (`content_reaches_top_file`).
-/

namespace Datapack

open Script

def Script.Directive.leavesContents : Directive → Bool
  | .root | .home | .sethome _ | .cd _ | .mkdir _ | .open _ | .close | .log _ => true
  | .init .. | .rmdir _ | .clear _ | .del _ => false

namespace World

def trace (w : World) (n : Nat) : List String → List (World × String)
  | [] => []
  | line :: rest =>
    let w := { w with session.line := n + 1 }
    (w, line) :: (w.executeLine line).1.trace (n + 1) rest

/-- What a line sends to the file `p`: its text, if it is content and `p` is on top of the
stack of open files. -/
def sends (w : World) (line : String) (p : Path) : ByteArray :=
  match classify line, w.session.files.current? with
  | .content text, some top =>
    if top.components = p.components then OutputStack.written text else .empty
  | _, _ => .empty

def Pushes (w : World) (line : String) (p : Path) : Prop :=
  (w.executeLine line).1.session.files = p :: w.session.files

/-- All that the lines of a run send to the file `p`, in their order. -/
def sent (p : Path) : List (World × String) → ByteArray
  | [] => .empty
  | (w, line) :: rest => w.sends line p ++ sent p rest

/-! ## One line -/

structure Routing (w : World) : Prop where
  linkFree : w.disk.tree.LinkFree
  absolute : w.session.anchors.Absolute
  files : ∀ p ∈ w.session.files, p.IsCanonical ∧ w.disk.isFile p = true

structure Routed (w : World) (line : String) (w' : World) : Prop where
  routing : w'.Routing
  content : ∀ p : Path, p.isAbsolute = true → w'.disk.tree.contentAt p.names =
    w.disk.tree.contentAt p.names ++ w.sends line p
  untouched : ∀ place, (∀ p ∈ w.session.files, p.names ≠ place) →
    (∀ p ∈ w'.session.files, p.names ≠ place) →
    w'.disk.tree.file? place = w.disk.tree.file? place
  kept : ∀ place, w.disk.tree.file? place ≠ none → w'.disk.tree.file? place ≠ none
  stack : ∀ p ∈ w'.session.files, p ∈ w.session.files ∨ w'.session.files = p :: w.session.files

variable {w w' : World} {line : String}

theorem sends_of_not_content (h : ∀ text, classify line ≠ .content text) (p : Path) :
    w.sends line p = .empty := by
  unfold sends
  split
  · rename_i text _ he _
    exact absurd he (h text)
  · rfl

theorem sends_of_noneOpen (h : w.session.files = []) (p : Path) : w.sends line p = .empty := by
  unfold sends
  rw [h]
  cases classify line <;> rfl

/-- Absolute paths have the same components if they have the same names. -/
theorem sends_of_top {text : String} {top : Path} (hline : classify line = .content text)
    (htop : w.session.files.head? = some top) (htopabs : top.isAbsolute = true) {p : Path}
    (hp : p.isAbsolute = true) :
    w.sends line p = if p.names = top.names then OutputStack.written text else .empty := by
  have hsame : top.components = p.components ↔ p.names = top.names := by
    rw [Path.components_of_isAbsolute htopabs, Path.components_of_isAbsolute hp, List.cons.injEq]
    exact ⟨fun h => h.2.symm, fun h => ⟨rfl, h.symm⟩⟩
  unfold sends OutputStack.current?
  rw [hline, htop]
  simp only [hsame]

namespace Routing

theorem file?_ne_none (hw : w.Routing) {p : Path} (hp : p ∈ w.session.files) :
    w.disk.tree.file? p.names ≠ none := by
  obtain ⟨hcanonical, hf⟩ := hw.files p hp
  obtain ⟨_, _, bytes, hbytes⟩ := (Disk.isFile_iff hw.linkFree hcanonical).1 hf
  rw [hbytes]
  simp

/-- The files of the disk are the same, and no path is put on the stack. -/
theorem sameFiles (hw : w.Routing) (ha : w'.session.anchors.Absolute)
    (hd : w'.disk.SameFiles w.disk.tree) (hstack : ∀ p ∈ w'.session.files, p ∈ w.session.files)
    (hsends : ∀ p, w.sends line p = .empty) : w.Routed line w' where
  routing := by
    refine ⟨hd.linkFree, ha, ?_⟩
    intro p hp
    obtain ⟨hcanonical, hf⟩ := hw.files p (hstack p hp)
    exact ⟨hcanonical, hd.isFile hw.linkFree hcanonical hf⟩
  content := by
    intro p _
    rw [hsends p, ByteArray.append_empty, FileTree.contentAt, hd.files]
    rfl
  untouched := fun place _ _ => hd.files place
  kept := by
    intro place h
    rw [hd.files place]
    exact h
  stack := fun p hp => .inl (hstack p hp)

/-- What the line sends is added to one file, which was on the stack or is put there. -/
theorem gains (hw : w.Routing) (ha : w'.session.anchors.Absolute) {top : Path} {bytes : ByteArray}
    (hd : w'.disk.Gains w.disk.tree top.names bytes)
    (htop : top.IsCanonical ∧ w'.disk.isFile top = true)
    (hstack : top ∈ w.session.files ∧ w'.session.files = w.session.files ∨
      w'.session.files = top :: w.session.files)
    (hsends : ∀ p : Path, p.isAbsolute = true →
      w.sends line p = if p.names = top.names then bytes else .empty) : w.Routed line w' := by
  have hmem : ∀ p ∈ w'.session.files, p ∈ w.session.files ∨
      p = top ∧ w'.session.files = top :: w.session.files := by
    intro p hp
    rcases hstack with ⟨_, hf⟩ | hf
    · rw [hf] at hp
      exact .inl hp
    · rcases List.mem_cons.1 (hf ▸ hp) with rfl | hp
      · exact .inr ⟨rfl, hf⟩
      · exact .inl hp
  have hthere : top ∈ w'.session.files := by
    rcases hstack with ⟨hin, hf⟩ | hf
    · rw [hf]; exact hin
    · rw [hf]; exact List.mem_cons_self
  refine ⟨⟨hd.linkFree, ha, ?_⟩, ?_, ?_, ?_, ?_⟩
  · intro p hp
    rcases hmem p hp with hp | ⟨rfl, _⟩
    · obtain ⟨hcanonical, hf⟩ := hw.files p hp
      exact ⟨hcanonical, hd.isFile hw.linkFree hcanonical hf⟩
    · exact htop
  · intro p hp
    rw [hd.contentAt, hsends p hp]
  · intro place _ hplace
    rw [hd.files, if_neg (hplace top hthere).symm]
  · intro place h
    rw [hd.files place]
    split
    · simp
    · exact h
  · intro p hp
    rcases hmem p hp with hp | ⟨rfl, hf⟩
    · exact .inl hp
    · exact .inr hf

/-- A directive that leaves contents alone sends nothing, and opens at most one file. -/
theorem does (hw : w.Routing) {d : Directive} (hline : classify line = .directive d)
    (hd : d.leavesContents = true) {kinds : List DiagnosticKind} (h : w.Does d w' kinds) :
    w.Routed line w' := by
  have ha := h.absolute hw.absolute
  have hsends : ∀ p, w.sends line p = .empty := by
    intro p
    refine sends_of_not_content ?_ p
    intro text
    rw [hline]
    simp
  have same := Disk.SameFiles.refl hw.linkFree
  have canonical : ∀ {raw : String} {wanted : Wanted} {p : Path},
      (w.resolve raw wanted).path? = some p → p.IsCanonical :=
    fun hp => (Anchors.inside_of_resolve hw.absolute hp).1
  cases h with
  | skipped | rootUnset | root | home | sethomeHere | sethome | cd | log =>
    exact hw.sameFiles ha same (fun _ hp => hp) hsends
  | mkdir hp _ | mkdirFailed hp _ =>
    have made := same.makeDirs (canonical (resolve_path?_of_absent hp)).isAbsolute
    exact hw.sameFiles ha made (fun _ hp => hp) hsends
  | «open» hp hok =>
    obtain ⟨hgains, hfile⟩ := Disk.provide_done hw.linkFree (canonical hp) hok
    refine hw.gains ha hgains ⟨canonical hp, hfile⟩ (.inr rfl) ?_
    intro q _
    rw [hsends q]
    split <;> rfl
  | openFailed hp hf =>
    have made := Disk.provide_failed hw.linkFree (canonical hp) hf
    exact hw.sameFiles ha made (fun _ hp => hp) hsends
  | close hf =>
    refine hw.sameFiles ha same ?_ hsends
    intro q hq
    rw [hf]
    exact List.mem_cons_of_mem _ hq
  | init | initFailed | rmdir | clear | del => cases hd

/-- A content line adds to the file on top, which is there. -/
theorem writeText (hw : w.Routing) {text : String} (hline : classify line = .content text) :
    w.Routed line (w.writeText text).1 := by
  cases htop : w.session.files.head? with
  | none =>
    have hfiles : w.session.files = [] := List.head?_eq_none_iff.1 htop
    rw [writeText_of_noneOpen htop text]
    exact hw.sameFiles hw.absolute (Disk.SameFiles.refl hw.linkFree) (fun _ hp => hp)
      (sends_of_noneOpen hfiles)
  | some top =>
    have hmem : top ∈ w.session.files := List.mem_of_mem_head? htop
    obtain ⟨hcanonical, hfile⟩ := hw.files top hmem
    obtain ⟨d, hd⟩ := Disk.append_of_isFile hfile (OutputStack.written text)
    have hgains := Disk.append_gains hw.linkFree hcanonical hd
    have hstill := hgains.isFile hw.linkFree hcanonical hfile
    rw [writeText_of_append htop hfile hd]
    refine hw.gains hw.absolute hgains ⟨hcanonical, hstill⟩ (.inl ⟨hmem, rfl⟩) ?_
    intro p hp
    exact sends_of_top hline htop hcanonical.isAbsolute hp

theorem executeLine (hw : w.Routing)
    (hline : ∀ d, classify line = .directive d → d.leavesContents = true) :
    w.Routed line (w.executeLine line).1 := by
  rcases w.executeLine_cases line with ⟨hquiet, h⟩ | ⟨d, kinds, hd, h⟩ | ⟨text, htext, h⟩
  · rw [h]
    exact hw.sameFiles hw.absolute (Disk.SameFiles.refl hw.linkFree) (fun _ hp => hp)
      (sends_of_not_content hquiet)
  · exact hw.does hd (hline d hd) h
  · rw [h]
    exact hw.writeText htext

end Routing

/-! ## Runs -/

structure RoutedAll (w : World) (trace : List (World × String)) (w' : World) : Prop where
  content : ∀ p : Path, p.isAbsolute = true → w'.disk.tree.contentAt p.names =
    w.disk.tree.contentAt p.names ++ sent p trace
  untouched : ∀ place, (∀ p ∈ w.session.files, p.names ≠ place) →
    (∀ m ∈ trace, ∀ p, m.1.Pushes m.2 p → p.names ≠ place) →
    w'.disk.tree.file? place = w.disk.tree.file? place
  kept : ∀ place, w.disk.tree.file? place ≠ none → w'.disk.tree.file? place ≠ none
  pushed : ∀ m ∈ trace, ∀ p, m.1.Pushes m.2 p → w'.disk.tree.file? p.names ≠ none

/-- A line and then the rest of a run. -/
theorem Routed.before {rest : List (World × String)} (hline : w.Routed line (w.executeLine line).1)
    (hrest : (w.executeLine line).1.RoutedAll rest w') : w.RoutedAll ((w, line) :: rest) w' where
  content := by
    intro p hp
    rw [hrest.content p hp, hline.content p hp, ByteArray.append_assoc]
    rfl
  untouched := by
    intro place hopen hpushes
    have hnext : ∀ p ∈ (w.executeLine line).1.session.files, p.names ≠ place := by
      intro p hp
      rcases hline.stack p hp with hp | hp
      · exact hopen p hp
      · exact hpushes (w, line) List.mem_cons_self p hp
    have hlater : ∀ m ∈ rest, ∀ p, m.1.Pushes m.2 p → p.names ≠ place :=
      fun m hm => hpushes m (List.mem_cons_of_mem _ hm)
    rw [hrest.untouched place hnext hlater, hline.untouched place hopen hnext]
  kept := fun place h => hrest.kept place (hline.kept place h)
  pushed := by
    intro m hm p hp
    rcases List.mem_cons.1 hm with rfl | hm
    · refine hrest.kept p.names (hline.routing.file?_ne_none ?_)
      rw [show (w.executeLine line).1.session.files = p :: w.session.files from hp]
      exact List.mem_cons_self
    · exact hrest.pushed m hm p hp

theorem Routing.runLines {lines : List String} (hw : w.Routing)
    (hlines : ∀ line ∈ lines, ∀ d, classify line = .directive d → d.leavesContents = true)
    (n : Nat) : w.RoutedAll (w.trace n lines) (w.runLines n lines).1 := by
  induction lines generalizing w n with
  | nil =>
    refine ⟨fun _ _ => ByteArray.append_empty.symm, fun _ _ _ => rfl, fun _ h => h, ?_⟩
    intro m hm
    cases hm
  | cons line rest ih =>
    have hn : Routing { w with session.line := n + 1 } := ⟨hw.linkFree, hw.absolute, hw.files⟩
    have hline := hn.executeLine (hlines line List.mem_cons_self)
    have hrest := ih hline.routing (fun l hl => hlines l (List.mem_cons_of_mem line hl)) (n + 1)
    have h := hline.before hrest
    exact ⟨h.content, h.untouched, h.kept, h.pushed⟩

end World

/-- No content line is lost, doubled, moved or sent elsewhere: each file ends as what it
was, and then what was sent while it was on top; a line that finds no file open changes
nothing; whatever was opened is a file in the end, and no other file has changed. -/
theorem content_reaches_top_file {w : World} (hl : w.disk.tree.LinkFree)
    (ha : w.session.anchors.Absolute) (hopen : w.session.files = []) (source : String)
    (hsource : ∀ line ∈ Text.lines source, ∀ d, classify line = .directive d →
      d.leavesContents = true) :
    let trace := w.trace 0 (Text.lines source)
    let t := (w.run source).1.disk.tree
    (∀ p : Path, p.isAbsolute = true → Path.Clean p.components →
      t.contentAt p.names = w.disk.tree.contentAt p.names ++ World.sent p trace) ∧
    (∀ m ∈ trace, ∀ text, classify m.2 = .content text → m.1.session.files = [] →
      (m.1.executeLine m.2).1 = m.1) ∧
    (∀ m ∈ trace, ∀ p, m.1.Pushes m.2 p → t.file? p.names ≠ none) ∧
    ∀ place, (∀ m ∈ trace, ∀ p, m.1.Pushes m.2 p → p.names ≠ place) →
      t.file? place = w.disk.tree.file? place := by
  intro trace t
  have start : w.Routing := by
    refine ⟨hl, ha, ?_⟩
    intro p hp
    rw [hopen] at hp
    cases hp
  have h : w.RoutedAll trace (w.run source).1 := start.runLines hsource 0
  refine ⟨fun p hp _ => h.content p hp, ?_, h.pushed, ?_⟩
  · rintro ⟨w', line⟩ _ text hline hnone
    simp only [World.executeLine, hline]
    exact World.writeText_of_noneOpen (by rw [hnone]; rfl) text
  · intro place hplace
    refine h.untouched place ?_ hplace
    intro p hp
    rw [hopen] at hp
    cases hp

/-- A file that is there, opened, covered by another, and opened again. -/
theorem content_reaches_top_file_nested :
    let t := (FileTree.empty.add [] "t" .dir).add ["t"] "a" (.file "0\n".toUTF8)
    let w : World := ⟨⟨t, ⟨[], 0⟩⟩, .begin ⟨"/t"⟩ (some ⟨"/t"⟩)⟩
    let source := "lost\n#> open a\n1\n#> open b/../c\n2\n#> open a\n3  \n#> close\n#> close\n4"
    (w.disk.tree.LinkFree ∧ w.session.anchors.Absolute ∧ w.session.files = [] ∧
      ∀ line ∈ Text.lines source, ∀ d, classify line = .directive d → d.leavesContents = true) ∧
    (w.run source).1.disk.tree.contentAt ["t", "a"] = "0\n1\n3\n4\n".toUTF8 := by
  intro t w source
  have hl : t.LinkFree :=
    (FileTree.linkFree_empty.add [] "t" (by simp)).add ["t"] "a" (by simp)
  have ha : w.session.anchors.Absolute := by
    refine ⟨by decide +kernel, ?_, ?_⟩
    · intro r hr
      cases hr
      decide +kernel
    · intro h hh
      cases hh
  have hsource : ∀ line ∈ Text.lines source, ∀ d, classify line = .directive d →
      d.leavesContents = true := by
    have : ∀ line ∈ Text.lines source, (match classify line with
        | .directive d => d.leavesContents
        | _ => true) = true := by decide +kernel
    intro line hm d hd
    simpa only [hd] using this line hm
  refine ⟨⟨hl, ha, rfl, hsource⟩, ?_⟩
  have h := (content_reaches_top_file hl ha rfl source hsource).1 ⟨"/t/a"⟩ (by decide +kernel) (by
    unfold Path.Clean
    decide +kernel)
  have hnames : (⟨"/t/a"⟩ : Path).names = ["t", "a"] := by decide +kernel
  have hsent : t.contentAt ["t", "a"] ++ World.sent ⟨"/t/a"⟩ (w.trace 0 (Text.lines source)) =
      "0\n1\n3\n4\n".toUTF8 := by decide +kernel
  rw [hnames] at h
  exact h.trans hsent

end Datapack
