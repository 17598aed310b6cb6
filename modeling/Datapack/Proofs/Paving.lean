import Datapack.Proofs.Making

/-
  Datapack.Proofs.Paving — making a directory on a disk without links, and what is there
  afterwards.

  Where no link is in the way, it depends on little whether the directory `p` can be made
  with those above it: the disk has to take the text and the names of `p`, and nothing but
  directories may stand along them (`Disk.Clears`). If so, afterwards a directory stands at
  every place along `p`, and everything else is as it was (`makeDirs_of_clears`); and no
  other paths can be made (`clears_of_makeDirs`).

  A last name that is too long is found out last: the directories above are made, and stay
  (`makeDirs_overlong`).
-/

namespace Datapack

namespace Disk

variable {d d' : Disk} {p : Path}

/-! ## Clean paths -/

/-- What is walked along is names, and a `.` where the path ends in a separator. -/
theorem steps_cases (p : Path) : p.steps = p.names ∨ p.steps = p.names ++ ["."] := by
  unfold Path.steps
  split
  · exact .inr rfl
  · exact .inl rfl

/-- A walk that comes to a directory ends there. -/
theorem land_of_isDir {place : Place} (hp : p.isAbsolute = true) (hnul : p.hasNul = false)
    (hlen : p.text.utf8ByteSize ≤ maxPathBytes) (hc : Path.Clean place)
    (hdir : d.tree.get? place = some .dir) (last : LastLink) {names : List String}
    (hn : names = place ∨ names = place ++ ["."]) : d.land last p names = .ok (.node place) := by
  refine (land_iff hp).2 ⟨hnul, hlen, .here ?_⟩
  have hwalk : ∀ rest, d.tree.advance last [] (place ++ rest) = d.tree.advance last place rest :=
    fun rest => FileTree.advance_append last hc hdir rest
  rcases hn with rfl | rfl
  · simpa [FileTree.advance_nil] using hwalk []
  · rw [hwalk, FileTree.advance_cons, if_pos hdir, if_pos rfl, FileTree.advance_nil]

/-- A clean path leads to a directory just if one stands at its names and the disk takes
its text. -/
theorem isDir_iff (hd : d.tree.LinkFree) (hp : p.IsClean) : d.isDir p = true ↔
    p.hasNul = false ∧ p.text.utf8ByteSize ≤ maxPathBytes ∧ d.tree.get? p.names = some .dir := by
  rw [isDir_iff_node]
  constructor
  · intro hn
    have hget := node_of_linkFree hd hp.isAbsolute hn
    rw [Path.fold_of_clean hp.clean] at hget
    unfold Disk.node at hn
    split at hn
    · rename_i hl
      obtain ⟨hnul, hlen, _⟩ := land_ok hp.isAbsolute hl
      exact ⟨hnul, hlen, hget⟩
    · cases hn
    · rename_i hl
      obtain ⟨hnul, hlen, _⟩ := land_ok hp.isAbsolute hl
      exact ⟨hnul, hlen, hget⟩
    · cases hn
  · rintro ⟨hnul, hlen, hget⟩
    unfold Disk.node
    rw [land_of_isDir hp.isAbsolute hnul hlen hp.clean hget .follow (steps_cases p)]
    simp only [hget]

/-- The canonical form of a clean path to a directory has its names. -/
theorem canonical_of_isDir (hp : p.IsClean) (hnul : p.hasNul = false)
    (htext : p.text.utf8ByteSize ≤ maxPathBytes) (hdir : d.tree.get? p.names = some .dir) :
    d.canonical p =
      if maxPathBytes < (Path.ofPlace p.names).text.utf8ByteSize then .error .nameTooLong
      else .ok (Path.ofPlace p.names) := by
  have hland := land_of_isDir hp.isAbsolute hnul htext hp.clean hdir .follow (steps_cases p)
  have hlocate : d.locate .follow p p.steps = .ok (.node p.names) := by
    unfold land at hland
    rw [if_neg (by simp [hnul]), if_neg (Nat.not_lt.2 htext)] at hland
    exact hland
  unfold Disk.canonical
  rw [if_neg (by simp [hnul]), if_neg (by simp [hp.isAbsolute]), hlocate]

/-- A canonical path to a directory that stands at its names is its own canonical form. -/
theorem canonical_self (hp : p.IsCanonical) (htext : p.text.utf8ByteSize ≤ maxPathBytes)
    (hdir : d.tree.get? p.names = some .dir) : d.canonical p = .ok p ∧ d.isDir p = true := by
  have hnul := hasNul_of_get? hp (by rw [hdir]; simp)
  constructor
  · rw [canonical_of_isDir hp.isClean hnul htext hdir, ← hp.eq_ofPlace, if_neg (Nat.not_lt.2 htext)]
  · rw [isDir_iff_node, node]
    rw [land_of_isDir hp.isAbsolute hnul htext hp.clean hdir .follow (steps_cases p)]
    simp only [hdir]

/-- All that stands along a place is directories, if one stands there itself. -/
theorem isDir_along {place q : Place} (h : d.tree.get? place = some .dir) (hq : q <+: place) :
    d.tree.get? q = some .dir := by
  by_cases he : q = place
  · rw [he, h]
  · exact FileTree.get?_of_prefix (by rw [h]; simp) hq he

/-! ## What can be made -/

/-- The disk takes the text and the names of `p`, and nothing but directories stands along
them. -/
structure Clears (d : Disk) (p : Path) : Prop where
  nul : p.hasNul = false
  text : p.text.utf8ByteSize ≤ maxPathBytes
  short : ∀ name ∈ p.names, name.utf8ByteSize ≤ maxNameBytes
  way : ∀ q, q <+: p.names → d.tree.get? q = none ∨ d.tree.get? q = some .dir

/-- From `d` to `d'` the directories along `place` have been made, as far as they were
missing, and nothing else has changed. -/
def Paved (place : Place) (d d' : Disk) : Prop :=
  ∀ q, d'.tree.get? q = if q <+: place then some .dir else d.tree.get? q

theorem paved_self {place : Place} (h : d.tree.get? place = some .dir) : d.Paved place d := by
  intro q
  split
  · rename_i hq
    exact isDir_along h hq
  · rfl

theorem Paved.linkFree {place : Place} (h : d.Paved place d') (hd : d.tree.LinkFree) :
    d'.tree.LinkFree := by
  intro q target hq
  rw [h q] at hq
  split at hq
  · cases hq
  · exact hd q target hq

theorem Paved.concat {init : Place} {name : String} {e : Disk} (h : d.Paved init e)
    (hset : e.Sets d' (init ++ [name]) (some .dir)) : d.Paved (init ++ [name]) d' := by
  intro q
  rw [hset q]
  by_cases hq : q = init ++ [name]
  · simp [hq]
  · rw [if_neg hq, h q]
    have hpre : q <+: init ++ [name] ↔ q <+: init := by
      rw [List.prefix_concat_iff]
      simp [hq]
    simp only [hpre]

/-- Nothing is taken away. -/
theorem makeDirs_within (hp : p.isAbsolute = true) : d.tree.Within (d.makeDirs p).1.tree := by
  refine makeDirs_keeps (P := fun e => d.tree.Within e.tree) hp ?_ (FileTree.Within.refl _)
  intro e e' q hq _ h hm
  obtain ⟨dir, name, _, hfree, hset⟩ := mkdir_lands hm
  exact h.trans (hset.within hfree)

theorem makeDirs_linkFree (hd : d.tree.LinkFree) (hp : p.isAbsolute = true) :
    (d.makeDirs p).1.tree.LinkFree := by
  refine makeDirs_keeps (P := fun e => e.tree.LinkFree) hp ?_ hd
  intro e e' q hq _ h hm
  exact (mkdir_sets h hq hm).2.linkFree h (by simp)

/-- Where the directory above is and the name is free and short enough, one can be made. -/
theorem mkdir_of_free {init : Place} {name : String} (hp : p.IsClean) (hnul : p.hasNul = false)
    (htext : p.text.utf8ByteSize ≤ maxPathBytes) (hnames : p.names = init ++ [name])
    (hdir : d.tree.get? init = some .dir) (hshort : name.utf8ByteSize ≤ maxNameBytes)
    (hfree : d.tree.get? (init ++ [name]) = none) : ∃ d', d.mkdir p = .ok d' := by
  obtain ⟨hdot, hdots⟩ := hp.clean name (by simp [hnames])
  have hclean : Path.Clean init := fun n hn => hp.clean n (by simp [hnames, hn])
  have ha : d.tree.advance .keep [] p.names = .landed (.vacant init name) := by
    rw [hnames, FileTree.advance_append .keep hclean hdir, List.nil_append, FileTree.advance_cons,
      if_pos hdir, if_neg hdot, if_neg hdots, if_neg (Nat.not_lt.2 hshort), hfree]
    simp
  unfold mkdir
  rw [(land_iff hp.isAbsolute).2 ⟨hnul, htext, .here ha⟩]
  exact ⟨_, rfl⟩

/-- Where the directory above is missing, none is made. -/
theorem mkdir_of_missing {init : Place} {name : String} (hp : p.IsClean) (hnul : p.hasNul = false)
    (htext : p.text.utf8ByteSize ≤ maxPathBytes) (hnames : p.names = init ++ [name])
    (hshort : ∀ n ∈ init, n.utf8ByteSize ≤ maxNameBytes)
    (hway : ∀ q, q <+: init → d.tree.get? q = none ∨ d.tree.get? q = some .dir)
    (hmissing : d.tree.get? init = none) : d.mkdir p = .error .notFound := by
  have hclean : Path.Clean init := fun n hn => hp.clean n (by simp [hnames, hn])
  have ha : d.tree.advance .keep [] p.names = .failed .notFound := by
    rw [hnames]
    exact FileTree.advance_of_missing .keep hclean hshort hway hmissing (by simp) (by simp)
  unfold mkdir
  rw [land_of_isAbsolute hp.isAbsolute, if_neg (by simp [hnul]), if_neg (Nat.not_lt.2 htext)]
  unfold FileTree.walk
  rw [ha]

theorem isDir_of_mkdir_of_linkFree (hd' : d'.tree.LinkFree) (hp : p.IsClean)
    (h : d.mkdir p = .ok d') : d'.isDir p = true := by
  obtain ⟨dir, name, hl, hfree, hset⟩ := mkdir_lands h
  obtain ⟨hnul, htext, _⟩ := land_ok hp.isAbsolute hl
  have hd : d.tree.LinkFree := fun q target hq => hd' q target (hset.within hfree q _ hq)
  have hthere := (mkdir_sets hd hp.isAbsolute h).2.get?
  rw [Path.fold_of_clean hp.clean] at hthere
  exact (isDir_iff hd' hp).2 ⟨hnul, htext, hthere⟩

/-- With the directories above just made, the last call decides. -/
theorem makeDirsUp_of_missing {above : List Path} {e : Disk}
    (hmissing : d.mkdir p = .error .notFound) (hup : makeDirsUp above d = (e, .ok ())) :
    makeDirsUp (p :: above) d = match e.mkdir p with
      | .ok d' => (d', .ok ())
      | .error f => (e, if e.isDir p then .ok () else .error f) := by
  rw [makeDirsUp, hmissing]
  cases hm : e.mkdir p with
  | ok d' => simp only [hup, hm]
  | error f => simp only [hup, hm]

theorem Clears.parent? {q : Path} (h : d.Clears p) (hp : p.IsClean) (hq : p.parent? = some q)
    (hnames : q.names <+: p.names) : d.Clears q := by
  obtain ⟨rest, hrest⟩ := Path.text_parent? hp.isAbsolute hq
  refine ⟨?_, ?_, fun name hn => h.short name (hnames.subset hn), fun r hr => h.way r (hr.trans hnames)⟩
  · have hnul := h.nul
    unfold Path.hasNul at hnul ⊢
    rw [← hrest] at hnul
    simp only [List.contains_eq_mem, List.mem_append, decide_eq_false_iff_not, not_or] at hnul ⊢
    exact hnul.1
  · have htext : p.text = q.text ++ String.ofList rest := by
      rw [← String.toList_inj, String.toList_append, String.toList_ofList, hrest]
    have := h.text
    rw [htext, String.utf8ByteSize_append] at this
    omega

/-- With the directories above in place, one call makes what is missing. -/
theorem mkdir_of_paved {init : Place} {name : String} {e : Disk} (he : e.tree.LinkFree)
    (hp : p.IsClean) (h : d.Clears p) (hnames : p.names = init ++ [name])
    (hfree : d.tree.get? (init ++ [name]) = none) (hpaved : d.Paved init e) :
    ∃ d', e.mkdir p = .ok d' ∧ d.Paved (init ++ [name]) d' := by
  have hthere : e.tree.get? init = some .dir := by rw [hpaved init, if_pos (List.prefix_refl _)]
  have hstill : e.tree.get? (init ++ [name]) = none := by
    rw [hpaved (init ++ [name]), if_neg ?_, hfree]
    intro hpre
    have hlen := hpre.length_le
    rw [List.length_append, List.length_singleton] at hlen
    omega
  have hshort : name.utf8ByteSize ≤ maxNameBytes := h.short name (by simp [hnames])
  obtain ⟨d', hm⟩ := mkdir_of_free hp h.nul h.text hnames hthere hshort hstill
  have hset := (mkdir_sets he hp.isAbsolute hm).2
  rw [Path.fold_of_clean hp.clean, hnames] at hset
  exact ⟨d', hm, hpaved.concat hset⟩

/-- What is cleared can be made, and that is all that is done. -/
theorem makeDirs_of_clears (hd : d.tree.LinkFree) (hp : p.IsClean) (h : d.Clears p) :
    ∃ e, d.makeDirs p = (e, .ok ()) ∧ d.Paved p.names e := by
  generalize hn : p.names.length = n
  induction n generalizing p with
  | zero =>
    have hdir : d.tree.get? p.names = some .dir := by simp [List.length_eq_zero_iff.1 hn]
    have hisDir : d.isDir p = true := (isDir_iff hd hp).2 ⟨h.nul, h.text, hdir⟩
    exact ⟨d, makeDirs_of_isDir hisDir, paved_self hdir⟩
  | succ n ih =>
    rcases hp.parent?_cases with ⟨hnil, _⟩ | ⟨q, hq, hne, hqclean, hqnames⟩
    · simp [hnil] at hn
    obtain ⟨init, name, hnames⟩ := (List.eq_nil_or_concat p.names).resolve_left hne
    rw [List.concat_eq_append] at hnames
    rw [hnames, List.dropLast_concat] at hqnames
    have hqpre : q.names <+: p.names := by simp [hqnames, hnames]
    rw [makeDirs, Path.ancestors_eq hp, hq]
    simp only
    rcases h.way p.names (List.prefix_refl _) with hfree | hdir
    · rw [hnames] at hfree ⊢
      -- With or without a call for it, the directory above is there for the last call.
      obtain ⟨e, hlinks, hpaved, hlast⟩ : ∃ e, e.tree.LinkFree ∧ d.Paved init e ∧
          ∀ d', e.mkdir p = .ok d' → makeDirsUp (p :: q.ancestors) d = (d', .ok ()) := by
        rcases h.way q.names hqpre with hmissing | hthere
        · obtain ⟨e, hup, hpaved⟩ := ih hqclean (h.parent? hp hq hqpre) (by
            simpa [hnames, hqnames] using hn)
          have hlinks := makeDirs_linkFree hd hqclean.isAbsolute
          rw [hup] at hlinks
          have hdown : d.mkdir p = .error .notFound := by
            rw [hqnames] at hmissing hqpre
            exact mkdir_of_missing hp h.nul h.text hnames (fun n hn => h.short n (hqpre.subset hn))
              (fun r hr => h.way r (hr.trans hqpre)) hmissing
          refine ⟨e, hlinks, hqnames ▸ hpaved, ?_⟩
          intro d' hm
          rw [makeDirsUp_of_missing hdown hup, hm]
        · refine ⟨d, hd, paved_self (hqnames ▸ hthere), ?_⟩
          intro d' hm
          rw [makeDirsUp, hm]
      obtain ⟨d', hm, hpaved'⟩ := mkdir_of_paved hlinks hp h hnames hfree hpaved
      exact ⟨d', hlast d' hm, hpaved'⟩
    · have hisDir : d.isDir p = true := (isDir_iff hd hp).2 ⟨h.nul, h.text, hdir⟩
      exact ⟨d, makeDirsUp_of_isDir hisDir _, paved_self hdir⟩

/-- Nothing else can be made: what stands along `p` afterwards stood there before, if
anything did. -/
theorem clears_of_makeDirs (hd : d.tree.LinkFree) (hp : p.IsClean)
    (h : (d.makeDirs p).2 = .ok ()) : d.Clears p := by
  have hlinks : (d.makeDirs p).1.tree.LinkFree := makeDirs_linkFree hd hp.isAbsolute
  have hwithin : d.tree.Within (d.makeDirs p).1.tree := makeDirs_within hp.isAbsolute
  have hdir : (d.makeDirs p).1.isDir p = true := by
    rw [makeDirs, Path.ancestors_eq hp] at h hlinks ⊢
    rcases makeDirsUp_cases p _ d with ⟨e, f, _, hr⟩ | ⟨e, he, ⟨d', hm, hr⟩ | ⟨f, _, hr⟩⟩
    · rw [hr] at h
      cases h
    · rw [hr] at hlinks ⊢
      exact isDir_of_mkdir_of_linkFree hlinks hp hm
    · rw [hr] at h ⊢
      by_cases hdir : e.isDir p = true
      · exact hdir
      · simp [hdir] at h
  obtain ⟨hnul, htext, hget⟩ := (isDir_iff hlinks hp).1 hdir
  refine ⟨hnul, htext, ?_, ?_⟩
  · intro name hm
    have hname := FileTree.isEntryName_of_get? (by rw [hget]; simp) name hm
    exact (isEntryName_iff.1 hname).2.2.2
  · intro q hq
    cases hn : d.tree.get? q with
    | none => exact .inl rfl
    | some node =>
      have hafter := hwithin q node hn
      rw [isDir_along hget hq] at hafter
      exact .inr hafter.symm

/-- That the last name is too long is seen when the directories above have been made. -/
theorem makeDirs_overlong (hd : d.tree.LinkFree) (hp : p.IsClean) {above : Path} {name : String}
    (habove : p.parent? = some above) (h : d.Clears above) (hmissing : d.tree.get? above.names = none)
    (hnul : p.hasNul = false) (htext : p.text.utf8ByteSize ≤ maxPathBytes)
    (hname : p.names.getLast? = some name) (hlong : maxNameBytes < name.utf8ByteSize) :
    (d.makeDirs p).2 = .error .nameTooLong ∧ d.Paved above.names (d.makeDirs p).1 := by
  rcases hp.parent?_cases with ⟨_, hnone⟩ | ⟨q, hq, hne, hclean, hqnames⟩
  · rw [habove] at hnone
    cases hnone
  obtain rfl : q = above := Option.some.inj (hq.symm.trans habove)
  have hnames : p.names = q.names ++ [name] := by
    obtain ⟨init, hinit⟩ := List.getLast?_eq_some_iff.1 hname
    rw [hqnames, hinit, List.dropLast_concat]
  obtain ⟨hdot, hdots⟩ := hp.clean name (by simp [hnames])
  obtain ⟨e, hup, hpaved⟩ := makeDirs_of_clears hd hclean h
  have hlinks := makeDirs_linkFree hd hclean.isAbsolute
  rw [hup] at hlinks
  have hthere : e.tree.get? q.names = some .dir := by
    rw [hpaved q.names, if_pos (List.prefix_refl _)]
  have hdown : d.mkdir p = .error .notFound :=
    mkdir_of_missing hp hnul htext hnames h.short h.way hmissing
  have hlast : e.mkdir p = .error .nameTooLong := by
    have hwalk : e.tree.advance .keep [] p.names = .failed .nameTooLong := by
      rw [hnames, FileTree.advance_append .keep hclean.clean hthere, List.nil_append,
        FileTree.advance_cons, if_pos hthere, if_neg hdot, if_neg hdots, if_pos hlong]
    unfold mkdir
    rw [land_of_isAbsolute hp.isAbsolute, if_neg (by simp [hnul]), if_neg (Nat.not_lt.2 htext)]
    unfold FileTree.walk
    rw [hwalk]
  have hnot : e.isDir p = false := by
    refine Bool.eq_false_iff.2 fun hdir => ?_
    have hget := ((isDir_iff hlinks hp).1 hdir).2.2
    have hentry := FileTree.isEntryName_of_get? (by rw [hget]; simp) name (by simp [hnames])
    exact absurd (isEntryName_iff.1 hentry).2.2.2 (Nat.not_le.2 hlong)
  have hresult : d.makeDirs p = (e, .error .nameTooLong) := by
    rw [makeDirs, Path.ancestors_eq hp, habove]
    exact (makeDirsUp_of_missing hdown hup).trans (by simp [hlast, hnot])
  rw [hresult]
  exact ⟨rfl, hpaved⟩

end Disk

end Datapack
