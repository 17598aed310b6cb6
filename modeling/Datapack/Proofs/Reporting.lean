import Datapack.Proofs.Noting
import Mathlib.Control.Monad.Basic

/-
  Datapack.Proofs.Reporting — what the report of a removal says.

  The counts are true of any removal, since each call takes one node and is counted
  (`Balanced.gone`). The failures are another matter: they name paths, and a path means
  something else once a link along it has gone.

  Where the way to the directory does not lead through the directory itself, and no link at
  its end goes before the rest, the whole removal is within what its places are allowed
  (`reports_removeTree`). So the directory goes last, and whoever is told of a failure finds
  the entry there (`removeTree_report`).

  With a link that is to go itself the link goes first, and then the report names entries
  that no path of it leads to, each directory twice (`removeTree_report_link`).
-/

namespace Datapack

namespace Removal

variable {r : Removal}

/-! ## Counts -/

/-- Every node that is missing has been counted. -/
theorem Balanced.gone {t : FileTree} (h : r.Balanced t) (hwithin : r.disk.tree.Within t) :
    r.files + r.dirs = (t.below []).countP fun x => r.disk.tree.get? x.1 = none := by
  have hall : ∀ t : FileTree, t.count (· != .dir) + t.count (· == .dir) = (t.below []).length := by
    intro t
    let isDir (x : Place × Node) : Bool := x.2 == .dir
    have hnot : (fun x => decide (¬isDir x = true)) = fun x => x.2 != .dir := by
      funext x
      cases hx : x.2 == .dir <;> simp [isDir, bne, hx]
    have hsplit := List.length_eq_countP_add_countP isDir (l := t.below [])
    rw [hnot, Nat.add_comm] at hsplit
    exact hsplit.symm
  have hgone := FileTree.countP_gone hwithin
  have hfiles := h.files
  have hdirs := h.dirs
  have := hall t
  have := hall r.disk.tree
  omega

/-- What could not be removed is still there under the path that is told, however long that
is, and is told once, or twice if the path is too long for it to be listed. -/
def Truthful (r : Removal) : Prop :=
  ∀ q ∈ r.failures.map Prod.fst,
    (∃ place, r.disk.locate .keep q q.names = .ok (.node place) ∧ r.disk.tree.get? place ≠ none) ∧
    (r.failures.map Prod.fst).count q ≤ if maxPathBytes < q.text.utf8ByteSize then 2 else 1

end Removal

namespace Disk

open Removal

variable {d : Disk} {p : Path} {top : Place} {o : FileTree}

theorem within_removeTree (hp : p.isAbsolute = true) (self : Bool) :
    (d.removeTree p self).disk.tree.Within d.tree :=
  removeTree_keeps_steps (R := fun r => r.disk.tree.Within d.tree)
    (Q := fun q => q.isAbsolute = true)
    (fun _ _ hq hname => isAbsolute_child_of_isEntryName hq hname)
    ⟨fun _ _ hq hr => within_attempt hq hr, fun _ _ _ _ hr => hr⟩ hp self (FileTree.Within.refl _)

/-! ## The report of a whole removal -/

/-- The removal of a directory is within the limits, but for a link that is to go itself. -/
theorem reports_removeTree (hp : p.IsCanonical) (ha : Approach p top o) (ho : o.Within d.tree)
    (hdir : d.isDir p = true) {self : Bool} (hself : self = true → d.node .keep p = .ok .dir) :
    Reports p top (allowed p) ⟨d, []⟩ (d.removeTree p self) := by
  obtain ⟨hnul, _, _⟩ := (node_iff hp).1 (isDir_iff_node.1 hdir)
  have htop : d.tree.get? (top ++ []) = some .dir := by
    rw [List.append_nil]
    exact ho _ _ ha.dir
  have hswept : ∀ late flush, Reports p top (inside p []) ⟨d, []⟩
      (sweep d.tree.height late flush p (listing d p) ⟨d, []⟩) := by
    intro late flush
    have h := minds_sweep hp ha hnul d.tree.height flush late [] ⟨d, []⟩ ho htop
    rwa [hp.down_nil] at h
  unfold removeTree
  rcases node_keep_cases hp ha ho hdir with ⟨hnode, hkeep⟩ | ⟨target, hnode⟩
  · simp only [hnode]
    cases self with
    | false => exact (hswept false true).mono (inside_le_allowed p [])
    | true =>
      have hlast := (hswept false true).attempt hp ha ho (fun _ => hkeep) (by rw [htop]; simp)
        (fun x => Nat.le_of_eq (inside_add_once p [] x)) (under_le_allowed p []) true
      rw [hp.down_nil] at hlast
      exact hlast.mono (under_le_allowed p [])
  · cases self with
    | true =>
      rw [hself rfl] at hnode
      cases hnode
    | false =>
      simp only [hnode, isDir_iff_node.1 hdir]
      exact (hswept true false).mono (inside_le_allowed p [])

/-- Where no path leads to the directory any more, nothing of it is left. -/
theorem gone_of_reports (hp : p.IsCanonical) (ha : Approach p top o) (ho : o.Within d.tree)
    (hdir : d.isDir p = true) {r : Removal} (h : Reports p top (allowed p) ⟨d, []⟩ r)
    (hgone : ∀ node, r.disk.node .follow p ≠ .ok node) (rel : Place) :
    r.disk.tree.get? (top ++ rel) = none := by
  obtain ⟨hnul, htext, _⟩ := (node_iff hp).1 (isDir_iff_node.1 hdir)
  refine FileTree.get?_append_of_none (Decidable.not_not.1 fun htop => ?_) rel
  have hstill := h.approach ha ho htop
  exact hgone .dir ((node_iff hp).2
    ⟨hnul, htext, top, ha.leads.node_of_outlines hstill.outlines, hstill _ _ ha.dir⟩)

/-- What is noted is there, and noted as often as is allowed. -/
theorem failures_of_reports (hp : p.IsCanonical) (hnul : p.hasNul = false)
    (ha : Approach p top o) (ho : o.Within d.tree) {r : Removal}
    (h : Reports p top (allowed p) ⟨d, []⟩ r) : r.Truthful := by
  intro q hq
  obtain ⟨f, hf, rfl⟩ := List.mem_map.1 hq
  obtain ⟨rel, hpath, -, hthere⟩ := (h.failed f hf).resolve_left (by simp [failures])
  have htop : r.disk.tree.get? top ≠ none := fun hnone =>
    hthere (FileTree.get?_append_of_none hnone rel)
  have hcounted := h.counted rel
  rw [hpath]
  refine ⟨locate_of_approach hp hnul ha (h.approach ha ho htop) hthere, ?_⟩
  calc (r.failures.map Prod.fst).count (p.down rel)
      = r.failures.countP (fun f => f.1 == p.down rel) := by
        rw [List.count, List.countP_map]
        rfl
    _ ≤ r.noted (p.names ++ rel) := by
        refine List.countP_mono_left fun f _ he => ?_
        rw [← Path.names_down p (FileTree.isEntryName_of_there hthere)]
        simpa using congrArg Path.names (eq_of_beq he)
    _ ≤ allowed p rel := by simpa [noted, failures] using hcounted

/-- A link to an empty directory is all there is to remove. -/
theorem removeTree_of_empty_link {target : Path} (hdir : d.isDir p = true)
    (hnode : d.node .keep p = .ok (.link target)) (hlist : d.list p = .ok []) :
    d.removeTree p true = (⟨d, []⟩ : Removal).attempt ⟨p, false⟩ := by
  have hfound : listing d p = .ok [] := by
    unfold listing
    rw [hlist]
    rfl
  unfold removeTree
  simp only [hnode, isDir_iff_node.1 hdir, hfound, sweep_eq, if_true]
  rfl

theorem failures_of_empty_link (hp : p.IsCanonical) (ha : Approach p top o) (ho : o.Within d.tree)
    (hdir : d.isDir p = true) (hnode : d.node .keep p ≠ .ok .dir) (hlist : d.list p = .ok []) :
    (d.removeTree p true).Truthful := by
  obtain ⟨target, hlink⟩ := (node_keep_cases hp ha ho hdir).resolve_left fun h => hnode h.1
  rw [removeTree_of_empty_link hdir hlink hlist]
  rcases attempt_cases ⟨d, []⟩ ⟨p, false⟩ with ⟨reason, hnoted⟩ | ⟨hsame, _⟩
  · have htop : d.tree.get? (top ++ []) ≠ none := by
      rw [List.append_nil, ho _ _ ha.dir]
      simp
    have hreports := (reports_note (p := p) (r := ⟨d, []⟩) htop reason).mono (once_le_allowed p [])
    rw [hp.down_nil, ← hnoted] at hreports
    obtain ⟨hnul, _, _⟩ := (node_iff hp).1 (isDir_iff_node.1 hdir)
    exact failures_of_reports hp hnul ha ho hreports
  · intro q hq
    rw [hsame] at hq
    cases hq

/-- The report of a removal is true to what has gone and what is left. The nodes that have
gone are those it counts, whatever the path. Let the path lead to the directory at `top`, as
it would if that directory were empty, and not be a link that is to go with something still
in the directory. Then the directory goes last of all: once the path leads nowhere nothing of
it is left. And what could not be removed is still there, and is told once, or twice if its
path is too long for it to be listed. -/
theorem removeTree_report (hp : p.IsCanonical) (hdir : d.isDir p = true) (self : Bool) :
    let r := d.removeTree p self
    r.disk.tree.Within d.tree ∧
    r.files + r.dirs = (d.tree.below []).countP (fun x => r.disk.tree.get? x.1 = none) ∧
    ∀ top, (d.tree.emptied top).walk .follow maxLinks [] p.names = .ok (.node top) →
      (self = true → d.node .keep p = .ok .dir ∨ d.list p = .ok []) →
      ((∀ node, r.disk.node .follow p ≠ .ok node) →
        ∀ rel, rel ≠ [] → r.disk.tree.get? (top ++ rel) = none) ∧
      r.Truthful := by
  intro r
  have hwithin : r.disk.tree.Within d.tree := within_removeTree hp.isAbsolute self
  refine ⟨hwithin, (balanced_removeTree hp.isAbsolute self).gone hwithin, ?_⟩
  intro top hway hself
  have ho := d.tree.within_emptied top
  have ha := approach_emptied hp hdir hway
  obtain ⟨hnul, _, _⟩ := (node_iff hp).1 (isDir_iff_node.1 hdir)
  by_cases hlink : self = true ∧ d.node .keep p ≠ .ok .dir
  · obtain ⟨rfl, hnode⟩ := hlink
    have hlist := (hself rfl).resolve_left hnode
    refine ⟨fun _ rel hrel => ?_, failures_of_empty_link hp ha ho hdir hnode hlist⟩
    exact hwithin.get?_none (get?_below_of_list_nil hp ha ho hdir hlist hrel)
  · have hreports : Reports p top (allowed p) ⟨d, []⟩ r :=
      reports_removeTree hp ha ho hdir fun hs => Decidable.not_not.1 fun hne => hlink ⟨hs, hne⟩
    exact ⟨fun hgone rel _ => gone_of_reports hp ha ho hdir hreports hgone rel,
      failures_of_reports hp hnul ha ho hreports⟩

/-- So it is with a directory behind a link, and the one in it. -/
theorem removeTree_report_behind_link :
    let t := (((FileTree.empty.add [] "a" .dir).add ["a"] "d" .dir).add ["a", "d"] "s" .dir).add
      [] "l" (.link ⟨"a"⟩)
    let d : Disk := ⟨t, ⟨[], 0⟩⟩
    let p := Path.ofPlace ["l", "d"]
    let r := d.removeTree p true
    p.IsCanonical ∧ d.isDir p = true ∧
      (d.tree.emptied ["a", "d"]).walk .follow maxLinks [] p.names = .ok (.node ["a", "d"]) ∧
      d.node .keep p = .ok .dir ∧ r.disk.node .follow p = .error .notFound ∧
      r.files + r.dirs = 2 ∧ r.disk.tree.get? ["a", "d", "s"] = none ∧ r.Truthful := by
  intro t d p r
  have hp : p.IsCanonical := Path.isCanonical_ofPlace (by decide)
  have hdir : d.isDir p = true := by decide +kernel
  have hway : (d.tree.emptied ["a", "d"]).walk .follow maxLinks [] p.names =
      .ok (.node ["a", "d"]) := by decide +kernel
  have hnode : d.node .keep p = .ok .dir := by decide +kernel
  have hgone : r.disk.node .follow p = .error .notFound := by decide +kernel
  obtain ⟨_, hcount, hreport⟩ := removeTree_report hp hdir true
  obtain ⟨hlast, htrue⟩ := hreport ["a", "d"] hway fun _ => .inl hnode
  refine ⟨hp, hdir, hway, hnode, hgone, ?_, ?_, htrue⟩
  · exact hcount.trans (by decide +kernel)
  · exact hlast (fun node hfound => by rw [hgone] at hfound; cases hfound) ["s"] (by simp)

/-- With a link that goes itself its report is not true: the link is the first to go, and the
subdirectory, which stays, is told twice under a path that leads to nothing. -/
theorem removeTree_report_link :
    let t := ((FileTree.empty.add [] "d" .dir).add ["d"] "s" .dir).add [] "l" (.link ⟨"d"⟩)
    let d : Disk := ⟨t, ⟨[], 0⟩⟩
    let p := Path.ofPlace ["l"]
    let r := d.removeTree p true
    p.IsCanonical ∧ d.isDir p = true ∧ p ≠ ⟨"/"⟩ ∧ r.disk.node .keep p = .error .notFound ∧
      r.disk.tree.get? ["d", "s"] = some .dir ∧
      r.failures.map Prod.fst = [p.child "s", p.child "s"] ∧
      r.disk.node .keep (p.child "s") = .error .notFound := by
  intro t d p r
  exact ⟨Path.isCanonical_ofPlace (by decide), by decide +kernel, by decide +kernel,
    by decide +kernel, by decide +kernel, by decide +kernel, by decide +kernel⟩

end Disk

end Datapack
