import Datapack.Anchors
import Datapack.Proofs.Names

/-
  Datapack.Proofs.Boundary — what the boundary check lets through, and what it does not.

  An argument is first located without regard to the root (`outside`). That gives a
  refusal, or a canonical path: absolute, folded, and the same whatever kind of node is
  wanted. The boundary check then looks at nothing but the names of that path and those
  of the folded root:
  - `resolve_boundary`: a directory has to be the root or below it, a file strictly
    below; what passes is what it was without the check, what does not is told as lying
    outside, and an earlier refusal stays as it was.
  - `inside_of_resolve`: whatever a directive gets to work on is canonical and has the
    names of the folded root in front.
-/

namespace Datapack

def Resolution.path? : Resolution → Option Path
  | invalid _ => none
  | absent p | present p => some p

namespace Anchors

structure All (P : Path → Prop) (a : Anchors) : Prop where
  cwd : P a.cwd
  root : ∀ r ∈ a.root, P r
  home : ∀ h ∈ a.home, P h

abbrev Absolute (a : Anchors) : Prop := a.All fun p => p.isAbsolute = true

/-! ## Where an argument leads, the root aside -/

theorem existing_ok {d : Disk} {anchor : Option Path} {unset : InvalidPath}
    {missing : Path → InvalidPath} {p : Path} (h : existing d anchor unset missing = .ok p) :
    anchor = some p ∧ d.isDir p = true := by
  unfold existing at h
  split at h
  · cases h
  · split at h
    · rename_i hd; cases h; exact ⟨rfl, hd⟩
    · cases h

theorem isAbsolute_of_anchored {a : Anchors} (ha : a.Absolute) {d : Disk} {arg : List Char}
    {p : Path} (h : a.anchored d arg = .ok p) : p.isAbsolute = true := by
  have map_join : ∀ {e : Except InvalidPath Path} {rest : Path},
      (∀ q, e = .ok q → q.isAbsolute = true) → e.map (·.join rest) = .ok p → p.isAbsolute = true := by
    intro e rest hq hm
    cases e with
    | error => cases hm
    | ok q =>
      cases hm
      rw [Path.isAbsolute_join, hq q rfl, Bool.true_or]
  unfold anchored at h
  split at h
  · exact map_join (fun q hq => ha.home q (existing_ok hq).1) h
  · exact map_join (fun q hq => ha.root q (existing_ok hq).1) h
  · cases h
    rw [Path.isAbsolute_join, ha.cwd, Bool.true_or]

theorem existing_of_isDir {d d' : Disk} {anchor : Option Path} {unset : InvalidPath}
    {missing : Path → InvalidPath} {p : Path}
    (hkeep : ∀ q ∈ anchor, d.isDir q = true → d'.isDir q = true)
    (h : existing d anchor unset missing = .ok p) : existing d' anchor unset missing = .ok p := by
  obtain ⟨rfl, hdir⟩ := existing_ok h
  unfold existing
  exact if_pos (hkeep p rfl hdir)

/-- Where an argument led, it leads still, if no anchor has gone. -/
theorem locate_of_isDir {a : Anchors} {d d' : Disk} {raw : String} {w : Wanted} {outside : Bool}
    {p : Path} (hroot : ∀ q ∈ a.root, d.isDir q = true → d'.isDir q = true)
    (hhome : ∀ q ∈ a.home, d.isDir q = true → d'.isDir q = true)
    (h : a.locate d raw w outside = .ok p) : a.locate d' raw w outside = .ok p := by
  have map_ok : ∀ {e e' : Except InvalidPath Path} {f : Path → Path} {q : Path},
      (∀ r, e = .ok r → e' = .ok r) → e.map f = .ok q → e'.map f = .ok q := by
    intro e e' f q he hm
    cases e with
    | error => cases hm
    | ok r =>
      rw [he r rfl]
      exact hm
  have hanchored : ∀ {arg : List Char} {q : Path}, a.anchored d arg = .ok q →
      a.anchored d' arg = .ok q := by
    intro arg q hq
    unfold anchored at hq ⊢
    split at hq
    · exact map_ok (fun r => existing_of_isDir hhome) hq
    · exact map_ok (fun r => existing_of_isDir hroot) hq
    · exact hq
  simp only [locate, bind, Except.bind] at h ⊢
  split at h
  · cases h
  · split at h
    · cases h
    · rename_i joined hj
      rw [hanchored hj]
      exact h

/-- The wanted kind matters for the boundary check alone. -/
theorem locate_outside (a : Anchors) (d : Disk) (raw : String) (w : Wanted) :
    a.locate d raw w true = a.locate d raw .dir true := by
  simp only [locate, if_true]

theorem locate_inside (a : Anchors) (d : Disk) (raw : String) (w : Wanted) :
    a.locate d raw w false = match a.locate d raw .dir true with
      | .error e => .error e
      | .ok p => match a.checkBoundary w p with
        | .error e => .error e
        | .ok () => .ok p := by
  simp only [locate, bind, Except.bind]
  cases checkCharacters (argumentText raw) with
  | error e => rfl
  | ok _ =>
    cases a.anchored d (argumentText raw) with
    | error e => rfl
    | ok p =>
      simp only [Bool.false_eq_true, if_false, if_true, pure, Except.pure]
      cases a.checkBoundary w p.normalize <;> rfl

/-- The folded path of an argument without special characters that is anchored at the
working location. -/
theorem locate_word (a : Anchors) (d : Disk) {word : List Char} (hne : word ≠ [])
    (htrim : Text.trim (String.ofList word) = String.ofList word)
    (h : ∀ c ∈ word, c ≠ '\\' ∧ c ≠ ':' ∧ c ∉ reservedChars)
    (hfirst : word.head? ≠ some '~' ∧ word.head? ≠ some '/') :
    a.locate d (String.ofList word) .dir true = .ok (a.cwd.join ⟨String.ofList word⟩).normalize := by
  have harg : argumentText (String.ofList word) = word := by
    unfold argumentText
    rw [htrim, String.toList_ofList]
    refine (List.map_congr_left fun c hc => ?_).trans (List.map_id word)
    rw [if_neg (h c hc).1, id]
  have hcheck : checkCharacters word = .ok () := by
    have hnone : word.find? (reservedChars.contains ·) = none := by
      refine List.find?_eq_none.2 fun c hc => ?_
      simpa using (h c hc).2.2
    have hcount : word.count ':' = 0 := List.count_eq_zero.2 fun hm => (h _ hm).2.1 rfl
    unfold checkCharacters
    rw [if_neg hne, hnone, hcount]
    simp
  have hanchored : a.anchored d word = .ok (a.cwd.join ⟨String.ofList word⟩) := by
    unfold anchored
    split
    · exact absurd rfl hfirst.1
    · exact absurd rfl hfirst.2
    · rfl
  simp only [locate, harg, hcheck, hanchored, bind, Except.bind, if_true]
  rfl

theorem isCanonical_of_locate {a : Anchors} (ha : a.Absolute) {d : Disk} {raw : String} {w : Wanted}
    {p : Path} (h : a.locate d raw w true = .ok p) : p.IsCanonical := by
  simp only [locate, bind, Except.bind] at h
  split at h
  · cases h
  · split at h
    · cases h
    · rename_i q hq
      cases h
      exact Path.isCanonical_normalize (isAbsolute_of_anchored ha hq)

/-! ## The check -/

theorem checkBoundary_dir {a : Anchors} {r : Path} (ha : a.root = some r) (p : Path) :
    a.checkBoundary .dir p =
      if r.normalize.components <+: p.components then .ok () else .error (.outsideRoot p) := by
  unfold checkBoundary Path.isUnder
  rw [ha]
  simp only [List.isPrefixOf_iff_prefix]

/-- A file is checked by the directory it stands in, so the root itself is none. -/
theorem checkBoundary_file {a : Anchors} {r p : Path} (ha : a.root = some r)
    (hr : r.isAbsolute = true) (hroot : r.normalize ≠ ⟨"/"⟩) (hp : p.IsCanonical) :
    a.checkBoundary .file p =
      if r.normalize.components <+: p.components ∧ r.normalize.components ≠ p.components then .ok ()
      else .error (.outsideRoot p) := by
  have hcr := Path.components_of_isAbsolute ((Path.isAbsolute_normalize r).trans hr)
  have hcp := Path.components_of_isAbsolute hp.isAbsolute
  have under : (p.parent?.getD p).isUnder r.normalize = true ↔
      r.normalize.components <+: p.components ∧ r.normalize.components ≠ p.components := by
    rw [hp.parent?, hcr, hcp, List.cons_prefix_cons]
    by_cases h0 : p.names = []
    · -- Nothing stands above the top of the tree, and it lies below no other root.
      have hne : r.normalize.names ≠ [] := by
        intro he
        rw [Path.names_normalize] at he
        exact hroot (by rw [Path.normalize_eq_ofPlace hr, he]; rfl)
      rw [if_pos h0, Option.getD_none, Path.isUnder, hcr, hcp, List.isPrefixOf_iff_prefix,
        List.cons_prefix_cons, h0, List.prefix_nil]
      simp only [hne, and_false, false_and]
    · have hstretch : ∀ n ∈ p.names.dropLast, Path.IsStretch n :=
        fun n hn => Path.isStretch_of_mem_names (List.dropLast_subset _ hn)
      rw [if_neg h0, Option.getD_some, Path.isUnder, hcr,
        Path.components_of_isAbsolute (Path.isAbsolute_ofPlace _), Path.names_ofPlace hstretch,
        List.isPrefixOf_iff_prefix, List.cons_prefix_cons, Path.prefix_dropLast_iff h0]
      simp
  unfold checkBoundary
  simp only [ha, under]

theorem checkBoundary_unset {a : Anchors} (ha : a.root = none) (w : Wanted) (p : Path) :
    a.checkBoundary w p = .error .rootUnset := by
  unfold checkBoundary; rw [ha]

theorem isUnder_of_checkBoundary {a : Anchors} {w : Wanted} {p : Path}
    (h : a.checkBoundary w p = .ok ()) : ∃ r, a.root = some r ∧
      Path.isUnder (match w with | .dir => p | .file => p.parent?.getD p) r.normalize = true := by
  cases hr : a.root with
  | none =>
    rw [checkBoundary_unset hr] at h
    cases h
  | some r =>
    refine ⟨r, rfl, ?_⟩
    unfold checkBoundary at h
    rw [hr] at h
    cases w with
    | dir | file =>
      simp only at h ⊢
      split at h
      · assumption
      · cases h

/-- A file that passes the check stands in a directory under the root. -/
theorem prefix_dropLast_of_checkBoundary {a : Anchors} (ha : a.Absolute) {p : Path}
    (hp : p.IsCanonical) (h : a.checkBoundary .file p = .ok ()) :
    ∃ r, a.root = some r ∧ Path.fold r.names <+: p.names.dropLast := by
  obtain ⟨r, hr, hu⟩ := isUnder_of_checkBoundary h
  refine ⟨r, hr, ?_⟩
  have hrabs : r.normalize.isAbsolute = true := (Path.isAbsolute_normalize r).trans (ha.root r hr)
  simp only at hu
  rw [hp.parent?] at hu
  by_cases h0 : p.names = []
  · rw [if_pos h0, Option.getD_none, Path.isUnder_iff hp.isAbsolute hrabs, Path.names_normalize,
      h0] at hu
    rw [h0]
    exact hu
  · rw [if_neg h0, Option.getD_some, Path.isUnder_iff (Path.isAbsolute_ofPlace _) hrabs,
      Path.names_ofPlace fun n hn => Path.isStretch_of_mem_names (List.dropLast_subset _ hn),
      Path.names_normalize] at hu
    exact hu

/-- What passes the check has the names of the folded root in front. -/
theorem prefix_of_checkBoundary {a : Anchors} (ha : a.Absolute) {w : Wanted} {p : Path}
    (hp : p.IsCanonical) (h : a.checkBoundary w p = .ok ()) :
    ∃ r, a.root = some r ∧ Path.fold r.names <+: p.names := by
  cases w with
  | dir =>
    obtain ⟨r, hr, hu⟩ := isUnder_of_checkBoundary h
    have hrabs : r.normalize.isAbsolute = true := (Path.isAbsolute_normalize r).trans (ha.root r hr)
    rw [Path.isUnder_iff hp.isAbsolute hrabs, Path.names_normalize] at hu
    exact ⟨r, hr, hu⟩
  | file =>
    obtain ⟨r, hr, hpre⟩ := prefix_dropLast_of_checkBoundary ha hp h
    exact ⟨r, hr, hpre.trans (List.dropLast_prefix _)⟩

/-! ## Resolving -/

theorem resolve_of_error {a : Anchors} {d : Disk} {raw : String} {w : Wanted} {outside : Bool}
    {e : InvalidPath} (h : a.locate d raw w outside = .error e) :
    a.resolve d raw w outside = .invalid e := by
  unfold resolve; rw [h]

theorem path?_of_ok {a : Anchors} {d : Disk} {raw : String} {w : Wanted} {outside : Bool}
    {p : Path} (h : a.locate d raw w outside = .ok p) :
    (a.resolve d raw w outside).path? = some p := by
  unfold resolve
  rw [h]
  cases w <;> (simp only; split <;> rfl)

/-- What passes the check is what it was without it. -/
theorem resolve_of_locate_eq {a : Anchors} {d : Disk} {raw : String} {w : Wanted} {b c : Bool}
    (h : a.locate d raw w b = a.locate d raw w c) : a.resolve d raw w b = a.resolve d raw w c := by
  unfold resolve; rw [h]

theorem locate_of_path? {a : Anchors} {d : Disk} {raw : String} {w : Wanted} {outside : Bool}
    {p : Path} (h : (a.resolve d raw w outside).path? = some p) :
    a.locate d raw w outside = .ok p := by
  cases hl : a.locate d raw w outside with
  | error e => rw [resolve_of_error hl] at h; cases h
  | ok q => rw [path?_of_ok hl] at h; rw [Option.some.inj h]

/-- What a directive works on is canonical and has passed the check. -/
theorem checkBoundary_of_resolve {a : Anchors} (ha : a.Absolute) {d : Disk} {raw : String}
    {w : Wanted} {p : Path} (h : (a.resolve d raw w false).path? = some p) :
    p.IsCanonical ∧ a.checkBoundary w p = .ok () := by
  have hl := locate_of_path? h
  rw [locate_inside] at hl
  cases ho : a.locate d raw .dir true with
  | error e => rw [ho] at hl; cases hl
  | ok q =>
    rw [ho] at hl
    cases hb : a.checkBoundary w q with
    | error e => simp only [hb] at hl; cases hl
    | ok u =>
      simp only [hb] at hl
      obtain rfl : q = p := Except.ok.inj hl
      exact ⟨isCanonical_of_locate ha ho, hb⟩

/-- It has the names of the folded root in front. -/
theorem inside_of_resolve {a : Anchors} (ha : a.Absolute) {d : Disk} {raw : String} {w : Wanted}
    {p : Path} (h : (a.resolve d raw w false).path? = some p) :
    p.IsCanonical ∧ ∃ r, a.root = some r ∧ Path.fold r.names <+: p.names := by
  obtain ⟨hp, hb⟩ := checkBoundary_of_resolve ha h
  exact ⟨hp, prefix_of_checkBoundary ha hp hb⟩

/-- The boundary check is exact: it refuses what lies outside the folded root, and the
root itself as a file, and changes nothing else. -/
theorem resolve_boundary (a : Anchors) (d : Disk) (raw : String)
    (hcwd : a.cwd.isAbsolute = true)
    (hroot : ∀ r ∈ a.root, r.isAbsolute = true ∧ r.normalize ≠ ⟨"/"⟩)
    (hhome : ∀ h ∈ a.home, h.isAbsolute = true) (w : Wanted) :
    match a.resolve d raw w true with
    | .invalid e => ∀ v, a.resolve d raw v false = .invalid e
    | .absent p | .present p =>
      p.isAbsolute = true ∧ Path.Clean p.components ∧
      (∀ v, (a.resolve d raw v true).path? = some p) ∧
      match a.root with
      | none => ∀ v, a.resolve d raw v false = .invalid .rootUnset
      | some r =>
        a.resolve d raw .dir false =
          (if r.normalize.components <+: p.components then a.resolve d raw .dir true
          else .invalid (.outsideRoot p)) ∧
        a.resolve d raw .file false =
          if r.normalize.components <+: p.components ∧ r.normalize.components ≠ p.components then
            a.resolve d raw .file true
          else .invalid (.outsideRoot p) := by
  have ha : a.Absolute := ⟨hcwd, fun r hr => (hroot r hr).1, hhome⟩
  cases ho : a.locate d raw .dir true with
  | error e =>
    rw [resolve_of_error ((a.locate_outside d raw w).trans ho)]
    intro v
    exact resolve_of_error (by rw [locate_inside, ho])
  | ok p =>
    have hp := isCanonical_of_locate ha ho
    have same : ∀ v, (a.resolve d raw v true).path? = some p :=
      fun v => path?_of_ok ((a.locate_outside d raw v).trans ho)
    have refused : ∀ v e, a.checkBoundary v p = .error e → a.resolve d raw v false = .invalid e :=
      fun v e hb => resolve_of_error (by rw [locate_inside, ho]; simp only [hb])
    have passed : ∀ v, a.checkBoundary v p = .ok () → a.resolve d raw v false = a.resolve d raw v true :=
      fun v hb => resolve_of_locate_eq
        (by rw [locate_inside, ho, locate_outside, ho]; simp only [hb])
    have hw := same w
    cases hL : a.resolve d raw w true with
    | invalid e => rw [hL] at hw; cases hw
    | absent q | present q =>
      rw [hL] at hw
      cases hw
      refine ⟨hp.isAbsolute, hp.clean_components, same, ?_⟩
      cases hr : a.root with
      | none => exact fun v => refused v _ (checkBoundary_unset hr v p)
      | some r =>
        obtain ⟨hrabs, hne⟩ := hroot r hr
        have hdir := checkBoundary_dir hr p
        have hfile := checkBoundary_file hr hrabs hne hp
        refine ⟨?_, ?_⟩
        · split
          · rename_i hin; exact passed .dir (by rw [hdir, if_pos hin])
          · rename_i hout; exact refused .dir _ (by rw [hdir, if_neg hout])
        · split
          · rename_i hin; exact passed .file (by rw [hfile, if_pos hin])
          · rename_i hout; exact refused .file _ (by rw [hfile, if_neg hout])

/-- `/a/packX` has the text of the root `/a/pack` in front and lies outside, whatever
detours the anchors have. -/
theorem resolve_boundary_sibling :
    let a : Anchors := ⟨⟨"/a/pack/data/.."⟩, some ⟨"/a//pack"⟩, some ⟨"/a/pack"⟩⟩
    let d : Disk := ⟨.empty, ⟨[], 0⟩⟩
    (a.cwd.isAbsolute = true ∧ (∀ r ∈ a.root, r.isAbsolute = true ∧ r.normalize ≠ ⟨"/"⟩) ∧
      ∀ h ∈ a.home, h.isAbsolute = true) ∧
    a.resolve d "..\\packX" .dir false = .invalid (.outsideRoot ⟨"/a/packX"⟩) := by
  intro a d
  have hcwd : a.cwd.isAbsolute = true := by decide +kernel
  have hroot : ∀ r ∈ a.root, r.isAbsolute = true ∧ r.normalize ≠ ⟨"/"⟩ := by decide +kernel
  have hhome : ∀ h ∈ a.home, h.isAbsolute = true := by decide +kernel
  refine ⟨⟨hcwd, hroot, hhome⟩, ?_⟩
  have h := resolve_boundary a d "..\\packX" hcwd hroot hhome .dir
  have hl : a.resolve d "..\\packX" .dir true = .absent ⟨"/a/packX"⟩ := by decide +kernel
  rw [hl] at h
  obtain ⟨_, _, _, hdir, _⟩ := h
  exact hdir.trans (if_neg (by decide +kernel))

end Anchors

end Datapack
