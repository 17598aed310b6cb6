import Datapack.Proofs.Containment
import Datapack.Proofs.Removing

/-
  Datapack.Proofs.Twins — what a call reads lies along the place that it is confined to.

  Two disks without links are twins at a place if the same stands above it, at it and below
  it (`Disk.Twin`); elsewhere they may have nothing in common. A walk that never leaves those
  parts of the tree goes the same way on both (`Twin.land`), since what it does depends on
  nothing but what stands where its names lead (`FileTree.advance_congr`). So a call whose
  path is confined to the place meets the same fault on both, or makes the same change to both
  and leaves twins (`Alike`). For `mkdir` it is enough that the path stays along the place,
  above it or within it (`Path.Along`).
-/

namespace Datapack

/-! ## Trees that have something in common -/

namespace FileTree

variable {t t' : FileTree}

theorem entries_congr {p : Place} (h : ∀ q, t.get? (p ++ q) = t'.get? (p ++ q)) :
    t.entries p = t'.entries p := by
  have hsub : t.root.sub? p = t'.root.sub? p := by
    have hhere := h []
    simp only [get?_append] at h
    simp only [List.append_nil, get?, Branch.get?] at hhere
    cases hb : t.root.sub? p with
    | none =>
      rw [hb, Option.map_none] at hhere
      exact (Option.map_eq_none_iff.1 hhere.symm).symm
    | some b =>
      cases hc : t'.root.sub? p with
      | none =>
        rw [hb, hc] at hhere
        cases hhere
      | some c =>
        simp only [hb, hc, Option.bind_some] at h
        rw [Branch.ext (t.wellFormed.sub? hb) (t'.wellFormed.sub? hc) h]
  unfold entries
  rw [hsub]

/-- A walk depends on nothing but what stands where its names lead. -/
theorem advance_congr (last : LastLink) {cur : Place} {names : List String}
    (h : ∀ front, front <+: names →
      t.get? (front.foldl Path.foldName cur) = t'.get? (front.foldl Path.foldName cur)) :
    t.advance last cur names = t'.advance last cur names := by
  induction names generalizing cur with
  | nil => rw [advance_nil, advance_nil]
  | cons name rest ih =>
    have hcur : t.get? cur = t'.get? cur := h [] List.nil_prefix
    have hstep : t.get? (Path.foldName cur name) = t'.get? (Path.foldName cur name) :=
      h [name] (List.cons_prefix_cons.2 ⟨rfl, List.nil_prefix⟩)
    have hrest : t.advance last (Path.foldName cur name) rest =
        t'.advance last (Path.foldName cur name) rest :=
      ih fun front hf => h (name :: front) (List.cons_prefix_cons.2 ⟨rfl, hf⟩)
    rw [advance_cons, advance_cons, hcur]
    unfold Path.foldName at hstep hrest
    by_cases hdot : name = "."
    · rw [if_pos hdot] at hrest
      rw [if_pos hdot, if_pos hdot, hrest]
    by_cases hdots : name = ".."
    · rw [if_neg hdot, if_pos hdots] at hrest
      rw [if_neg hdot, if_pos hdots, if_neg hdot, if_pos hdots, hrest]
    rw [if_neg hdot, if_neg hdots] at hstep hrest
    rw [if_neg hdot, if_neg hdots, if_neg hdot, if_neg hdots, hstep, hrest]

end FileTree

/-! ## Paths that stay along a place -/

def Aligned (place q : Place) : Prop := q <+: place ∨ place <+: q

namespace Path

/-- However far the names of `p` are walked, that is above `place` or within it. -/
structure Along (place : Place) (p : Path) : Prop where
  isAbsolute : p.isAbsolute = true
  aligned : ∀ names, names <+: p.names → Aligned place (fold names)

variable {place : Place} {p q : Path}

theorem Confined.toAlong (hp : p.Confined place) : p.Along place := ⟨hp.isAbsolute, hp.along⟩

namespace Along

theorem of_names (hp : p.Along place) (hq : q.isAbsolute = true) (h : q.names <+: p.names) :
    q.Along place := ⟨hq, fun names hn => hp.aligned names (hn.trans h)⟩

theorem fold_names (hp : p.Along place) : Aligned place (fold p.names) :=
  hp.aligned p.names (List.prefix_refl _)

/-- A `.` behind some of the names leads nowhere else. -/
theorem dotted (hp : p.Along place) {names : List String} (h : names <+: p.names) :
    ∀ front, front <+: names ++ ["."] → Aligned place (fold front) := by
  intro front hf
  rcases List.prefix_concat_iff.1 hf with rfl | hf
  · rw [fold_concat]
    exact hp.aligned names h
  · exact hp.aligned front (hf.trans h)

theorem steps (hp : p.Along place) : ∀ front, front <+: p.steps → Aligned place (fold front) := by
  rcases Disk.steps_cases p with hs | hs
  · rw [hs]
    exact hp.aligned
  · rw [hs]
    exact hp.dotted (List.prefix_refl _)

theorem parent? (hp : p.Along place) (h : p.parent? = some q) : q.Along place :=
  hp.of_names (isAbsolute_parent? hp.isAbsolute h) (names_parent? h)

end Along

end Path

/-! ## Twins -/

/-- Two disks without links that have the same above `place`, at it and below it. -/
structure Disk.Twin (place : Place) (d e : Disk) : Prop where
  left : d.tree.LinkFree
  right : e.tree.LinkFree
  same : ∀ q, Aligned place q → d.tree.get? q = e.tree.get? q

/-- The same fault, or two results that are related. -/
inductive Alike {α β : Type} (R : α → β → Prop) : Except Fault α → Except Fault β → Prop
  | error (f : Fault) : Alike R (.error f) (.error f)
  | ok {a : α} {b : β} : R a b → Alike R (.ok a) (.ok b)

/-- Outcomes are alike if they are the same as far as success and faults go, and results
are related. -/
theorem Alike.of_outcome {α β : Type} {R : α → β → Prop} {x : Except Fault α} {y : Except Fault β}
    (h : (x.map fun _ => ()) = y.map fun _ => ()) (hr : ∀ a b, x = .ok a → y = .ok b → R a b) :
    Alike R x y := by
  cases x with
  | error f =>
    cases y with
    | error g =>
      cases h
      exact .error f
    | ok b => cases h
  | ok a =>
    cases y with
    | error g => cases h
    | ok b => exact .ok (hr a b rfl rfl)

namespace Disk.Twin

variable {place : Place} {d e d' e' : Disk} {p : Path}

/-- The same change made to both. -/
theorem sets (h : d.Twin place e) {q : Place} {node : Option Node} (hd : d.Sets d' q node)
    (he : e.Sets e' q node) (hn : ∀ target, node ≠ some (.link target)) : d'.Twin place e' := by
  refine ⟨hd.linkFree h.left hn, he.linkFree h.right hn, ?_⟩
  intro r hr
  rw [hd r, he r, h.same r hr]

/-- The directories along `place` made on both, where what is in there is the same. -/
theorem of_paved {d₂ e₂ : Disk} (hd : d.tree.LinkFree) (hd₂ : d₂.tree.LinkFree)
    (hinside : ∀ q, place <+: q → q ≠ place → d.tree.get? q = d₂.tree.get? q)
    (hpaved : d.Paved place e) (hpaved₂ : d₂.Paved place e₂) : e.Twin place e₂ := by
  refine ⟨hpaved.linkFree hd, hpaved₂.linkFree hd₂, ?_⟩
  intro q hq
  rw [hpaved q, hpaved₂ q]
  split
  · rfl
  · rename_i hout
    refine hinside q (hq.resolve_left hout) ?_
    rintro rfl
    exact hout (List.prefix_refl _)

/-! ### Look-ups -/

theorem land (h : d.Twin place e) (hp : p.isAbsolute = true) (last : LastLink)
    {names : List String} (hn : ∀ front, front <+: names → Aligned place (Path.fold front)) :
    d.land last p names = e.land last p names := by
  have hadvance : d.tree.advance last [] names = e.tree.advance last [] names :=
    FileTree.advance_congr last fun front hf => h.same _ (hn front hf)
  have hwalk : d.tree.walk last maxLinks [] names = e.tree.walk last maxLinks [] names := by
    unfold FileTree.walk
    rw [← hadvance]
    -- Without links that is the whole walk.
    rcases FileTree.advance_of_linkFree h.left last [] names with ⟨f, hf⟩ | ⟨l, hl, _⟩
    · rw [hf]
    · rw [hl]
  rw [land_of_isAbsolute hp, land_of_isAbsolute hp, hwalk]

theorem node (h : d.Twin place e) (hp : p.Along place) (last : LastLink) :
    d.node last p = e.node last p := by
  unfold Disk.node
  rw [← h.land hp.isAbsolute last hp.steps]
  cases hl : d.land last p p.steps with
  | error f => rfl
  | ok l =>
    cases l with
    | vacant | removed => rfl
    | node q =>
      obtain rfl := eq_fold_of_land_steps h.left hp.isAbsolute hl
      simp only [h.same _ hp.fold_names]

theorem isDir (h : d.Twin place e) (hp : p.Along place) : d.isDir p = e.isDir p := by
  unfold Disk.isDir
  rw [h.node hp]

theorem isFile (h : d.Twin place e) (hp : p.Along place) : d.isFile p = e.isFile p := by
  unfold Disk.isFile
  rw [h.node hp]

theorem tree_isDir (h : d.Twin place e) {q : Place} (hq : Aligned place q) :
    d.tree.isDir q = e.tree.isDir q := by
  unfold FileTree.isDir
  rw [h.same q hq]

/-- Within the place the same is listed. -/
theorem entries (h : d.Twin place e) {q : Place} (hq : place <+: q) :
    d.tree.entries q = e.tree.entries q :=
  FileTree.entries_congr fun r => h.same _ (.inr (hq.trans (List.prefix_append q r)))

theorem names (h : d.Twin place e) {q : Place} (hq : place <+: q) :
    d.tree.names q = e.tree.names q := by
  unfold FileTree.names
  rw [h.entries hq]

theorem listing (h : d.Twin place e) (hp : p.Confined place) :
    Removal.listing d p = Removal.listing e p := by
  have hlist : d.list p = e.list p := by
    unfold Disk.list
    rw [← h.land hp.isAbsolute .follow hp.toAlong.steps]
    cases hl : d.land .follow p p.steps with
    | error f => rfl
    | ok l =>
      cases l with
      | vacant | removed => rfl
      | node q =>
        obtain rfl := eq_fold_of_land_steps h.left hp.isAbsolute hl
        simp only [h.tree_isDir (.inr hp.within), h.entries hp.within]
  unfold Removal.listing
  rw [hlist]

/-! ### Single calls -/

theorem mkdir (h : d.Twin place e) (hp : p.Along place) :
    Alike (Twin place) (d.mkdir p) (e.mkdir p) := by
  refine .of_outcome ?_ ?_
  · unfold Disk.mkdir
    rw [← h.land hp.isAbsolute .keep hp.aligned]
    cases d.land .keep p p.names with
    | error f => rfl
    | ok l => cases l <;> rfl
  · intro d' e' hd he
    exact h.sets (mkdir_sets h.left hp.isAbsolute hd).2 (mkdir_sets h.right hp.isAbsolute he).2
      (by simp)

theorem rmdir (h : d.Twin place e) (hp : p.Confined place) :
    Alike (Twin place) (d.rmdir p) (e.rmdir p) := by
  refine .of_outcome ?_ ?_
  · unfold Disk.rmdir
    rw [← h.land hp.isAbsolute .keep hp.along]
    cases hl : d.land .keep p p.names with
    | error f => rfl
    | ok l =>
      cases p.names.getLast? with
      | none => rfl
      | some name =>
        by_cases hdot : name = "."
        · simp [hdot]
        by_cases hdots : name = ".."
        · simp [hdots]
        cases l with
        | vacant | removed => simp
        | node q =>
          obtain rfl := eq_fold_of_land_names h.left hp.isAbsolute hl
          simp only [h.tree_isDir (.inr hp.within), h.names hp.within]
          split
          · split <;> rfl
          · rfl
  · intro d' e' hd he
    exact h.sets (rmdir_sets h.left hp.isAbsolute hd).2.2 (rmdir_sets h.right hp.isAbsolute he).2.2
      (by simp)

theorem unlink (h : d.Twin place e) (hp : p.Confined place) :
    Alike (Twin place) (d.unlink p) (e.unlink p) := by
  refine .of_outcome ?_ ?_
  · unfold Disk.unlink
    rw [← h.land hp.isAbsolute .keep hp.along]
    cases hl : d.land .keep p p.names with
    | error f => rfl
    | ok l =>
      simp only
      split
      · cases l with
        | vacant | removed => rfl
        | node q =>
          obtain rfl := eq_fold_of_land_names h.left hp.isAbsolute hl
          simp only [h.tree_isDir (.inr hp.within)]
          split
          · rfl
          · split <;> rfl
      · rfl
  · intro d' e' hd he
    exact h.sets (unlink_sets h.left hp.isAbsolute hd).2 (unlink_sets h.right hp.isAbsolute he).2
      (by simp)

theorem deleteFile (h : d.Twin place e) (hp : p.Confined place) :
    Alike (Option.Rel (Twin place)) (d.deleteFile p) (e.deleteFile p) := by
  have hcall := h.unlink hp
  unfold Disk.deleteFile
  rw [h.isFile hp.toAlong]
  split
  · generalize d.unlink p = x at hcall ⊢
    generalize e.unlink p = y at hcall ⊢
    cases hcall with
    | error f => exact .error f
    | ok h' => exact .ok (.some h')
  · exact .ok .none

/-- Where the file is that a path is opened for, if it is, is the same on both. -/
theorem ensureFile (h : d.Twin place e) (hp : p.Confined place) :
    Alike (fun r s => r.1.Twin place s.1) (d.ensureFile p) (e.ensureFile p) := by
  refine .of_outcome ?_ ?_
  · unfold Disk.ensureFile
    split
    · rw [← h.land hp.isAbsolute .write hp.along]
      cases hl : d.land .write p p.names with
      | error f => rfl
      | ok l =>
        cases l with
        | vacant | removed => rfl
        | node q =>
          obtain rfl := eq_fold_of_land_names h.left hp.isAbsolute hl
          simp only [h.tree_isDir (.inr hp.within)]
          split <;> rfl
    · rw [← h.land hp.isAbsolute .keep (hp.toAlong.dotted (List.dropLast_prefix _))]
  · rintro ⟨d', q⟩ ⟨e', r⟩ hd he
    obtain ⟨rfl, hleft⟩ := ensureFile_sets h.left hp.isAbsolute hd
    obtain ⟨rfl, hright⟩ := ensureFile_sets h.right hp.isAbsolute he
    have hsame := h.same _ (.inr hp.within)
    -- On both a file stands there, or on neither anything does.
    rcases hleft with ⟨rfl, bytes, hfile⟩ | ⟨hfree, hset⟩
    · rcases hright with ⟨rfl, _⟩ | ⟨hfree', _⟩
      · exact h
      · rw [hsame, hfree'] at hfile
        cases hfile
    · rcases hright with ⟨rfl, bytes, hfile'⟩ | ⟨_, hset'⟩
      · rw [← hsame, hfree] at hfile'
        cases hfile'
      · exact h.sets hset hset' (by simp)

theorem store (h : d.Twin place e) (hp : p.Confined place) (bytes : ByteArray) :
    Alike (Twin place) (d.store p bytes) (e.store p bytes) := by
  refine .of_outcome ?_ ?_
  · have hfile := h.ensureFile hp
    unfold Disk.store
    generalize d.ensureFile p = x at hfile ⊢
    generalize e.ensureFile p = y at hfile ⊢
    cases hfile <;> rfl
  · intro d' e' hd he
    exact h.sets (store_sets h.left hp.isAbsolute hd) (store_sets h.right hp.isAbsolute he) (by simp)

theorem append (h : d.Twin place e) (hp : p.Confined place) (bytes : ByteArray) :
    Alike (Twin place) (d.append p bytes) (e.append p bytes) := by
  have hsame := h.same _ (.inr hp.within)
  refine .of_outcome ?_ ?_
  · have hfind : d.find p = e.find p := by
      unfold Disk.find
      rw [h.land hp.isAbsolute .follow hp.toAlong.steps]
    unfold Disk.append
    rw [← hfind]
    cases hf : d.find p with
    | error f => rfl
    | ok q =>
      obtain rfl := find_of_linkFree h.left hp.isAbsolute hf
      simp only [hsame]
      cases e.tree.get? (Path.fold p.names) with
      | none => rfl
      | some node => cases node <;> rfl
  · intro d' e' hd he
    obtain ⟨old, hold, hset⟩ := append_sets h.left hp.isAbsolute hd
    obtain ⟨old', hold', hset'⟩ := append_sets h.right hp.isAbsolute he
    rw [← hsame, hold] at hold'
    cases hold'
    exact h.sets hset hset' (by simp)

end Disk.Twin

end Datapack
