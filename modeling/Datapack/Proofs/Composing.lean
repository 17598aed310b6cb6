import Datapack.Proofs.Accepting
import Datapack.Proofs.Effects

/-
  Datapack.Proofs.Composing — one step after another is the two in one.

  A folded path is a canonical form: it has nothing left to fold, and folding it again
  changes nothing. And it can stand for the path that was folded: whatever is put behind
  it, also if that begins by taking names back, comes out as behind the path itself
  (`Path.normalize_join`). What has been taken back of the root or of nothing is gone in
  both.

  So a `cd` and another one behind it are one `cd` of both arguments with a separator
  between them (`normalize_composes`). The text in the middle must not be trimmed away, and
  what comes behind it must not start anew at an anchor (`argumentText_separated`); where
  the first argument starts does not matter, as a marker in front is dealt with before the
  rest is put behind its anchor (`Anchors.anchored_separated`).
-/

namespace Datapack

/-! ## Folding and joining -/

namespace Path

/-- Of a path, folding sees where it starts and what its names fold to. -/
theorem normalize_congr {p q : Path} (habs : p.isAbsolute = q.isAbsolute)
    (hnames : fold p.names = fold q.names) : p.normalize = q.normalize := by
  unfold normalize
  rw [habs, hnames]

theorem normalize_normalize (p : Path) : p.normalize.normalize = p.normalize := by
  apply normalize_congr (isAbsolute_normalize p)
  rw [names_normalize, fold_fold]

theorem clean_normalize (p : Path) : Clean p.normalize.components := by
  intro name hn
  unfold components at hn
  rw [names_normalize] at hn
  split at hn
  · rcases List.mem_cons.1 hn with rfl | hn
    · exact ⟨by decide, by decide⟩
    · exact fold_clean _ name hn
  · exact fold_clean _ name hn

/-- Names that take back more than they find in `b` take it from `a`, folded or not. -/
theorem normalize_join (a : Path) {b : Path} (hb : b.isAbsolute = false) :
    (a.join b).normalize = (a.normalize.join b).normalize := by
  apply normalize_congr
  · rw [isAbsolute_join, isAbsolute_join, isAbsolute_normalize]
  · rw [names_join hb, names_join hb, names_normalize, fold_append]

/-! ## Separators in front -/

theorem names_dropWhile (cs : List Char) :
    (⟨String.ofList (cs.dropWhile (· = '/'))⟩ : Path).names =
      (⟨String.ofList cs⟩ : Path).names := by
  induction cs with
  | nil => rfl
  | cons c cs ih =>
    by_cases hc : c = '/'
    · subst hc
      have hcut := names_separated [] cs
      rw [List.dropWhile_cons_of_pos (by simp), ih, ← List.nil_append ('/' :: cs), hcut]
      rfl
    · rw [List.dropWhile_cons_of_neg (by simpa using hc)]

theorem isAbsolute_dropWhile (cs : List Char) :
    (⟨String.ofList (cs.dropWhile (· = '/'))⟩ : Path).isAbsolute = false := by
  have hstop := List.head?_dropWhile_not (fun c => decide (c = '/')) cs
  unfold isAbsolute
  rw [String.toList_ofList]
  cases hh : (cs.dropWhile (· = '/')).head? with
  | none => rfl
  | some c =>
    rw [hh] at hstop
    simpa using hstop

def behind (base : Path) (cs : List Char) : Path :=
  base.join ⟨String.ofList (cs.dropWhile (· = '/'))⟩

theorem isAbsolute_behind (base : Path) (cs : List Char) :
    (base.behind cs).isAbsolute = base.isAbsolute := by
  rw [behind, isAbsolute_join, isAbsolute_dropWhile, Bool.or_false]

theorem names_behind (base : Path) (cs : List Char) :
    (base.behind cs).names = base.names ++ (⟨String.ofList cs⟩ : Path).names := by
  rw [behind, names_join (isAbsolute_dropWhile cs), names_dropWhile]

theorem normalize_behind (base : Path) (cs tail : List Char) :
    (base.behind (cs ++ '/' :: tail)).normalize =
      ((base.behind cs).behind tail).normalize := by
  apply normalize_congr
  · rw [isAbsolute_behind, isAbsolute_behind, isAbsolute_behind]
  · rw [names_behind, names_behind, names_behind, names_separated, List.append_assoc]

end Path

/-! ## The text of an argument -/

theorem dropWhile_append_of_stop {p : Char → Bool} {c : Char} (h : p c = false)
    (front cs : List Char) :
    (front ++ c :: cs).dropWhile p = front.dropWhile p ++ c :: cs := by
  induction front with
  | nil => exact List.dropWhile_cons_of_neg (by simp [h])
  | cons e front ih =>
    by_cases he : p e = true
    · rw [List.cons_append, List.dropWhile_cons_of_pos he, List.dropWhile_cons_of_pos he, ih]
    · rw [List.cons_append, List.dropWhile_cons_of_neg he, List.dropWhile_cons_of_neg he,
        List.cons_append]

/-- Two arguments with a separator between them, if no blank stands beside it. -/
theorem argumentText_separated {x y : String}
    (hx : ∀ c ∈ x.toList.getLast?, Text.isBlank c = false)
    (hy : ∀ c ∈ y.toList.head?, Text.isBlank c = false) :
    argumentText (x ++ "/" ++ y) = argumentText x ++ '/' :: argumentText y := by
  have hslash : Text.isBlank '/' = false := by decide
  have htext : (x ++ "/" ++ y).toList = x.toList ++ '/' :: y.toList := by simp
  have hback : Text.dropEndWhile Text.isBlank (x.toList.dropWhile Text.isBlank) =
      x.toList.dropWhile Text.isBlank := by
    rcases List.eq_nil_or_concat x.toList with he | ⟨front, c, he⟩
    · rw [he]
      rfl
    · rw [List.concat_eq_append] at he
      have hc : Text.isBlank c = false := hx c (by simp [he])
      rw [he, dropWhile_append_of_stop hc, Text.dropEndWhile_append hc]
      rfl
  have hfront : y.toList.dropWhile Text.isBlank = y.toList := by
    cases hl : y.toList with
    | nil => rfl
    | cons c cs => exact List.dropWhile_cons_of_neg (by simp [hy c (by simp [hl])])
  unfold argumentText
  simp only [Text.trim, Text.toList_trimEnd, Text.toList_trimStart]
  rw [htext, dropWhile_append_of_stop hslash, Text.dropEndWhile_append hslash, hback, hfront,
    List.map_append, List.map_cons]
  rfl

theorem mem_of_mem_argumentText {raw : String} {c : Char} (h : c ∈ argumentText raw) :
    c ∈ raw.toList ∨ c = '/' := by
  obtain ⟨o, ho, hoc⟩ := List.mem_map.1 h
  have hmem : o ∈ raw.toList := by
    simp only [Text.trim, Text.toList_trimEnd, Text.toList_trimStart, Text.dropEndWhile,
      List.mem_reverse] at ho
    have ho := (List.dropWhile_suffix _).subset ho
    exact (List.dropWhile_suffix _).subset (List.mem_reverse.1 ho)
  by_cases hb : o = '\\'
  · rw [if_pos hb] at hoc
    exact .inr hoc.symm
  · rw [if_neg hb] at hoc
    exact .inl (hoc ▸ hmem)

/-- Two arguments without colons that are accepted are so with a separator between them. -/
theorem checkCharacters_separated {s t : List Char} (hs : checkCharacters s = .ok ())
    (ht : checkCharacters t = .ok ()) (hsc : ':' ∉ s) (htc : ':' ∉ t) :
    checkCharacters (s ++ '/' :: t) = .ok () := by
  obtain ⟨-, hs, -⟩ := not_refused_iff.1 (checkCharacters_ok_iff.1 hs)
  obtain ⟨-, ht, -⟩ := not_refused_iff.1 (checkCharacters_ok_iff.1 ht)
  refine checkCharacters_ok_iff.2 (not_refused_iff.2 ⟨by simp, ?_, ?_⟩)
  · intro c hc
    rcases List.mem_append.1 hc with hc | hc
    · exact hs c hc
    · rcases List.mem_cons.1 hc with rfl | hc
      · decide
      · exact ht c hc
  · intro hstray
    rcases List.mem_append.1 hstray.mem with hc | hc
    · exact hsc hc
    · exact htc ((List.mem_cons.1 hc).resolve_left (by decide))

/-! ## Where an argument leads -/

namespace Anchors

variable {a : Anchors} {d : Disk}

/-- An argument that starts at no anchor is put behind the working location. -/
theorem anchored_plain {c : Char} (htilde : c ≠ '~') (hslash : c ≠ '/') (a : Anchors) (d : Disk)
    (cs : List Char) : a.anchored d (c :: cs) = .ok (a.cwd.behind (c :: cs)) := by
  have hstay : (c :: cs).dropWhile (· = '/') = c :: cs :=
    List.dropWhile_cons_of_neg (by simpa using hslash)
  unfold anchored
  split
  · rename_i h; exact absurd (List.cons.inj h).1 htilde
  · rename_i h; exact absurd (List.cons.inj h).1 hslash
  · rw [Path.behind, hstay]

/-- What comes behind an argument leads on from where that leads, whatever it starts at. -/
theorem anchored_separated {s : List Char} {p : Path} (hne : s ≠ []) (h : a.anchored d s = .ok p)
    (t : List Char) :
    ∃ q, a.anchored d (s ++ '/' :: t) = .ok q ∧ q.normalize = (p.behind t).normalize := by
  have behind_marker : ∀ {e : Except InvalidPath Path} {cs : List Char},
      e.map (·.behind cs) = .ok p → ∃ q, e.map (·.behind (cs ++ '/' :: t)) = .ok q ∧
        q.normalize = (p.behind t).normalize := by
    intro e cs he
    cases e with
    | error => cases he
    | ok base =>
      cases he
      exact ⟨_, rfl, base.normalize_behind cs t⟩
  cases s with
  | nil => exact absurd rfl hne
  | cons c cs =>
    by_cases htilde : c = '~'
    · subst htilde
      exact behind_marker h
    by_cases hslash : c = '/'
    · subst hslash
      exact behind_marker h
    rw [anchored_plain htilde hslash] at h
    cases h
    rw [List.cons_append, anchored_plain htilde hslash]
    exact ⟨_, rfl, a.cwd.normalize_behind (c :: cs) t⟩

/-- What has to hold of an argument for a directory to be found by it. -/
theorem resolve_present_iff {raw : String} {p : Path} :
    a.resolve d raw .dir false = .present p ↔
      checkCharacters (argumentText raw) = .ok () ∧
      (∃ q, a.anchored d (argumentText raw) = .ok q ∧ q.normalize = p) ∧
      a.checkBoundary .dir p = .ok () ∧ d.isDir p = true := by
  constructor
  · intro h
    have hl : a.locate d raw .dir false = .ok p := locate_of_path? (by rw [h]; rfl)
    have hdir : d.isDir p = true := by
      unfold resolve at h
      simp only [hl] at h
      by_cases hd : d.isDir p = true
      · exact hd
      · rw [if_neg hd] at h
        cases h
    simp only [locate, bind, Except.bind, Bool.false_eq_true, if_false] at hl
    split at hl
    · cases hl
    rename_i hcheck
    split at hl
    · cases hl
    rename_i q hq
    split at hl
    · cases hl
    rename_i hbound
    cases hl
    exact ⟨hcheck, ⟨q, hq, rfl⟩, hbound, hdir⟩
  · intro h
    obtain ⟨hcheck, ⟨q, hq, rfl⟩, hbound, hdir⟩ := h
    have hl : a.locate d raw .dir false = .ok q.normalize := by
      simp only [locate, hcheck, hq, hbound, bind, Except.bind]
      rfl
    unfold resolve
    simp only [hl, hdir, if_true]

/-- Where one argument leads, and from there another, both lead with a separator between. -/
theorem resolve_separated {x y : String} {p q : Path} (hxc : ':' ∉ x.toList) (hyc : ':' ∉ y.toList)
    (hx : ∀ c ∈ x.toList.getLast?, Text.isBlank c = false)
    (hy : ∀ c ∈ y.toList.head?, Text.isBlank c = false ∧ c ∉ ['~', '/', '\\'])
    (hp : a.resolve d x .dir false = .present p)
    (hq : { a with cwd := p }.resolve d y .dir false = .present q) :
    a.resolve d (x ++ "/" ++ y) .dir false = .present q := by
  obtain ⟨hcx, ⟨p', hp', rfl⟩, -, -⟩ := resolve_present_iff.1 hp
  obtain ⟨hcy, ⟨q', hq', rfl⟩, hbound, hdir⟩ := resolve_present_iff.1 hq
  have hnex : argumentText x ≠ [] := (not_refused_iff.1 (checkCharacters_ok_iff.1 hcx)).1
  have hney : argumentText y ≠ [] := (not_refused_iff.1 (checkCharacters_ok_iff.1 hcy)).1
  have htail : IsTail y := by
    refine ⟨?_, hyc, hy⟩
    rintro rfl
    exact hney rfl
  have htext := argumentText_separated hx fun c hc => (hy c hc).1
  have noColon : ∀ {raw : String}, ':' ∉ raw.toList → ':' ∉ argumentText raw :=
    fun hraw h => (mem_of_mem_argumentText h).elim hraw (by decide)
  refine resolve_present_iff.2 ⟨?_, ?_, hbound, hdir⟩
  · rw [htext]
    exact checkCharacters_separated hcx hcy (noColon hxc) (noColon hyc)
  · obtain ⟨joined, hjoined, hnormal⟩ := anchored_separated hnex hp' (argumentText y)
    rw [htext]
    refine ⟨joined, hjoined, hnormal.trans ?_⟩
    obtain ⟨c, cs, harg, htilde, hslash, -⟩ := htail.argumentText_eq
    rw [harg, anchored_plain htilde hslash] at hq'
    cases hq'
    rw [harg]
    exact p'.normalize_join (Path.isAbsolute_dropWhile _)

end Anchors

/-! ## Going on -/

namespace World

/-- A `cd` that has nothing to report leads from `w` to `w'`. -/
structure Goes (w : World) (raw : String) (w' : World) : Prop where
  silent : diagnosticKinds (w.execute (.cd raw)).2 = []
  leads : (w.execute (.cd raw)).1 = w'

theorem goes_iff {w w' : World} {raw : String} : w.Goes raw w' ↔
    ∃ p, w.resolve raw .dir = .present p ∧ w' = { w with session.anchors.cwd := p } := by
  constructor
  · intro h
    have hdoes : w.Does (.cd raw) w' [] := by
      rw [← h.silent, ← h.leads]
      exact w.execute_does (.cd raw)
    generalize hk : ([] : List DiagnosticKind) = kinds at hdoes
    cases hdoes with
    | skipped => cases hk
    | cd hp => exact ⟨_, hp, rfl⟩
  · intro ⟨p, hp, hw⟩
    subst hw
    have hstep : w.changeDir raw = w.moveTo p := by
      unfold changeDir
      rw [hp]
    constructor
    · simp only [execute, perform, hstep, diagnosticKinds_tell]
      rfl
    · simp only [execute, perform, hstep]
      rfl

end World

/-- The folded form of a path is canonical and can stand for it in front of any relative
one; so two `cd`s in a row are one `cd` of both arguments. -/
theorem normalize_composes :
    (∀ p : Path, Path.Clean p.normalize.components ∧ p.normalize.isAbsolute = p.isAbsolute ∧
      p.normalize.normalize = p.normalize) ∧
    (∀ a b : Path, b.isAbsolute = false → (a.join b).normalize = (a.normalize.join b).normalize) ∧
    ∀ (w w' w'' : World) (x y : String), ':' ∉ x.toList → ':' ∉ y.toList →
      (∀ c ∈ x.toList.getLast?, Text.isBlank c = false) →
      (∀ c ∈ y.toList.head?, Text.isBlank c = false ∧ c ∉ ['~', '/', '\\']) →
      w.Goes x w' → w'.Goes y w'' → w.Goes (x ++ "/" ++ y) w'' := by
  refine ⟨?_, ?_, ?_⟩
  · intro p
    exact ⟨p.clean_normalize, p.isAbsolute_normalize, p.normalize_normalize⟩
  · intro a b hb
    exact a.normalize_join hb
  · intro w w' w'' x y hxc hyc hx hy hgo hon
    obtain ⟨p, hp, rfl⟩ := World.goes_iff.1 hgo
    obtain ⟨q, hq, rfl⟩ := World.goes_iff.1 hon
    exact World.goes_iff.2 ⟨q, Anchors.resolve_separated hxc hyc hx hy hp hq, rfl⟩

/-- More is taken back than there is; and a step up, then one down by another name. -/
theorem normalize_composes_up :
    let t := ((FileTree.empty.add [] "p" .dir).add ["p"] "a" .dir).add ["p"] "b" .dir
    let at_ (cwd : Path) : World := ⟨⟨t, ⟨[], 0⟩⟩, .begin cwd (some ⟨"/p"⟩)⟩
    ((⟨"../../x"⟩ : Path).isAbsolute = false ∧
      ((⟨"/a/.."⟩ : Path).join ⟨"../../x"⟩).normalize = ((⟨"/"⟩ : Path).join ⟨"../../x"⟩).normalize) ∧
    ((∀ c ∈ " .\\..".toList.getLast?, Text.isBlank c = false) ∧
      (∀ c ∈ "b/. ".toList.head?, Text.isBlank c = false ∧ c ∉ ['~', '/', '\\']) ∧
      (at_ ⟨"/p/a"⟩).Goes " .\\.." { at_ ⟨"/p/a"⟩ with session.anchors.cwd := ⟨"/p"⟩ }) ∧
    (at_ ⟨"/p/a"⟩).Goes (" .\\.." ++ "/" ++ "b/. ")
      { at_ ⟨"/p/a"⟩ with session.anchors.cwd := ⟨"/p/b"⟩ } := by
  intro t at_
  obtain ⟨-, joined, goes⟩ := normalize_composes
  have hup : " .\\..".toList = [' ', '.', '\\', '.', '.'] := by decide +kernel
  have hdown : "b/. ".toList = ['b', '/', '.', ' '] := by decide +kernel
  have hrelative : (⟨"../../x"⟩ : Path).isAbsolute = false := by decide +kernel
  have hback : (⟨"/a/.."⟩ : Path).normalize = ⟨"/"⟩ := by decide +kernel
  have hlast : ∀ c ∈ " .\\..".toList.getLast?, Text.isBlank c = false := by
    rw [hup]
    intro c hc
    cases hc
    decide
  have hfirst : ∀ c ∈ "b/. ".toList.head?, Text.isBlank c = false ∧ c ∉ ['~', '/', '\\'] := by
    rw [hdown]
    intro c hc
    cases hc
    decide
  have hgo : (at_ ⟨"/p/a"⟩).Goes " .\\.." { at_ ⟨"/p/a"⟩ with session.anchors.cwd := ⟨"/p"⟩ } :=
    World.goes_iff.2 ⟨⟨"/p"⟩, by decide +kernel, rfl⟩
  have hon : World.Goes { at_ ⟨"/p/a"⟩ with session.anchors.cwd := ⟨"/p"⟩ } "b/. "
      { at_ ⟨"/p/a"⟩ with session.anchors.cwd := ⟨"/p/b"⟩ } :=
    World.goes_iff.2 ⟨⟨"/p/b"⟩, by decide +kernel, rfl⟩
  refine ⟨⟨hrelative, ?_⟩, ⟨hlast, hfirst, hgo⟩, ?_⟩
  · rw [joined _ _ hrelative, hback]
  · exact goes _ _ _ _ _ (by simp [hup]) (by simp [hdown]) hlast hfirst hgo hon

end Datapack
