import Datapack.Archive.Package
import Datapack.Proofs.Names
import Mathlib.Data.List.TakeWhile

/-
  Datapack.Proofs.Beside — the archive of a directory stands beside it, not in it.

  Paths are told apart by their components (`Path.parts`): separators to spare are none, and
  a `.` is one only at the start of a relative path. The path above and the last name are
  found in the text, piece by piece, with cases for the root, for a lone name and for a
  lone `.`; in components there is but one thing to say: a path with a name of its own is
  what is above it and that name (`Path.isNameless_or_endsIn`).

  So the archive that a directory gets without being asked for has the components of the
  directory, `.zip` behind the last one (`Archive.defaultPath_beside`). There is none for
  a path that does not end in a name: one without components, the root, and what ends in
  `..`. An archive is thus never the directory or below it, and no two directories share one.
-/

namespace Datapack

open Text

namespace Path

/-! ## Components -/

/-- The components of a path: a mark for the root, then the names. A `.` is one only where
a relative path begins. -/
def parts (p : Path) : List String :=
  if p.isAbsolute then "/" :: p.names.filter (· ≠ ".")
  else p.names.take 1 ++ (p.names.drop 1).filter (· ≠ ".")

/-- The last component, trailing `.` aside. -/
def lastPart? (p : Path) : Option String := (p.parts.reverse.dropWhile (· = ".")).head?

example : (⟨"./a//./b/."⟩ : Path).parts = [".", "a", "b"] := by decide +kernel
example : (⟨"./."⟩ : Path).parts = ["."] ∧ (⟨"./."⟩ : Path).lastPart? = none := by decide +kernel

theorem lastPart?_of_concat {p : Path} {front : List String} {name : String}
    (h : p.parts = front ++ [name]) (hname : name ≠ ".") : p.lastPart? = some name := by
  rw [lastPart?, h, List.reverse_concat, List.dropWhile_cons_of_neg (by simpa using hname)]
  rfl

theorem parts_child {base : Path} {name : String} (h : IsStretch name) (hdot : name ≠ ".") :
    (base.child name).parts = base.parts ++ [name] := by
  have hkeep : [name].filter (· ≠ ".") = [name] := by simp [hdot]
  unfold parts
  rw [isAbsolute_child h, names_child h]
  by_cases habs : base.isAbsolute = true
  · rw [if_pos habs, if_pos habs, List.filter_append, hkeep, List.cons_append]
  · rw [if_neg habs, if_neg habs]
    cases base.names with
    | nil => rfl
    | cons first names =>
      rw [List.cons_append, List.take_succ_cons, List.drop_succ_cons, List.take_succ_cons,
        List.drop_succ_cons, List.take_zero, List.take_zero, List.drop_zero, List.drop_zero,
        List.filter_append, hkeep, List.append_assoc]

/-! ## Components by pieces -/

def isPart (piece : List Char) : Bool := piece ≠ [] && piece ≠ ['.']

def laterParts (pieces : List (List Char)) : List String := (pieces.filter isPart).map String.ofList

/-- What the first piece is as a component: nothing in front of a separator is the root. -/
def firstPart (absolute : Bool) (first : List Char) : List String :=
  if first = [] then (if absolute then ["/"] else []) else [String.ofList first]

theorem laterParts_append (a b : List (List Char)) :
    laterParts (a ++ b) = laterParts a ++ laterParts b := by
  rw [laterParts, List.filter_append, List.map_append]
  rfl

theorem ofList_ne_dot_iff {piece : List Char} : String.ofList piece ≠ "." ↔ piece ≠ ['.'] := by
  rw [not_iff_not, ← String.toList_inj, String.toList_ofList]
  rfl

theorem filter_names (pieces : List (List Char)) :
    ((pieces.filter (· ≠ [])).map String.ofList).filter (· ≠ ".") = laterParts pieces := by
  unfold laterParts
  rw [List.filter_map, List.filter_filter]
  congr 2
  funext piece
  simp only [Function.comp_apply, isPart, ofList_ne_dot_iff, Bool.and_comm]

/-- A path starts at the root if nothing stands in front of its first separator. -/
theorem isAbsolute_iff_pieces {p : Path} {first : List Char} {rest : List (List Char)}
    (h : p.pieces = first :: rest) : p.isAbsolute = true ↔ first = [] ∧ rest ≠ [] := by
  unfold pieces at h
  unfold isAbsolute
  cases hl : p.text.toList with
  | nil =>
    rw [hl] at h
    obtain ⟨rfl, rfl⟩ := List.cons.inj h
    simp
  | cons c cs =>
    rw [hl, stretches] at h
    by_cases hc : c = '/'
    · rw [if_pos hc] at h
      obtain ⟨rfl, rfl⟩ := List.cons.inj h
      simp [hc, stretches_ne_nil]
    · obtain ⟨s, ss, hs⟩ := List.exists_cons_of_ne_nil (stretches_ne_nil '/' cs)
      rw [if_neg hc, hs] at h
      obtain ⟨rfl, rfl⟩ := List.cons.inj h
      simp [hc]

theorem parts_of_pieces {p : Path} {first : List Char} {rest : List (List Char)}
    (h : p.pieces = first :: rest) :
    p.parts = firstPart p.isAbsolute first ++ laterParts rest := by
  have habs := isAbsolute_iff_pieces h
  unfold parts firstPart
  rw [names, h]
  by_cases hfirst : first = []
  · subst hfirst
    rw [List.filter_cons_of_neg (by simp), if_pos rfl]
    by_cases hp : p.isAbsolute = true
    · rw [if_pos hp, if_pos hp, filter_names]
      rfl
    · -- Without the root, an empty first piece is all there is.
      have hrest : rest = [] := by
        by_contra hne
        exact hp (habs.2 ⟨rfl, hne⟩)
      rw [if_neg hp, if_neg hp, hrest]
      rfl
  · have hp : ¬ p.isAbsolute = true := fun hp => hfirst (habs.1 hp).1
    rw [List.filter_cons_of_pos (by simpa using hfirst), if_neg hp, if_neg hfirst, List.map_cons,
      List.take_succ_cons, List.drop_succ_cons, List.take_zero, List.drop_zero, filter_names]

/-- What is trimmed off are no components, and the last piece that stays is one. -/
theorem trimPieces_split (first : List Char) (rest : List (List Char)) :
    ∃ kept off, rest = kept ++ off ∧ trimPieces (first :: rest) = first :: kept ∧
      laterParts off = [] ∧ ∀ s ∈ kept.getLast?, isPart s = true := by
  have hcut := List.takeWhile_append_dropWhile (l := rest.reverse)
    (p := fun piece => piece = [] || piece = ['.'])
  refine ⟨_, (rest.reverse.takeWhile fun piece => piece = [] || piece = ['.']).reverse, ?_, rfl,
    ?_, ?_⟩
  · rw [← List.reverse_append, hcut, List.reverse_reverse]
  · unfold laterParts
    rw [List.map_eq_nil_iff, List.filter_eq_nil_iff]
    intro piece hm
    have hbad := List.mem_takeWhile_imp (List.mem_reverse.1 hm)
    simp only [Bool.or_eq_true, decide_eq_true_eq] at hbad
    rcases hbad with rfl | rfl <;> decide
  · intro s hs
    rw [List.getLast?_reverse] at hs
    have hstop := List.head?_dropWhile_not (fun piece => piece = [] || piece = ['.']) rest.reverse
    rw [hs] at hstop
    simpa [isPart] using hstop

/-- The components of a path that is put together from pieces. -/
theorem parts_ofPieces {first : List Char} {rest : List (List Char)} {absolute : Bool}
    (hsep : ∀ s ∈ first :: rest, '/' ∉ s) (habs : first = [] → absolute = true) :
    (ofPieces absolute (first :: rest)).parts = firstPart absolute first ++ laterParts rest := by
  by_cases hroot : first = [] ∧ rest = []
  · obtain ⟨rfl, rfl⟩ := hroot
    rw [habs rfl]
    decide +kernel
  have hpieces : (ofPieces absolute (first :: rest)).pieces = first :: rest := by
    unfold ofPieces pieces
    rw [if_neg (by simpa using fun _ => hroot), toList_intercalate_ofList,
      stretches_intercalate (List.cons_ne_nil _ _) hsep]
  rw [parts_of_pieces hpieces]
  by_cases hfirst : first = []
  · have hrest : rest ≠ [] := fun he => hroot ⟨hfirst, he⟩
    rw [(isAbsolute_iff_pieces hpieces).2 ⟨hfirst, hrest⟩, habs hfirst]
  · rw [firstPart, firstPart, if_neg hfirst, if_neg hfirst]

/-! ## The last name and what is above it -/

section Trimmed

variable {p : Path} {first last : List Char} {kept init : List (List Char)}

theorem notMem_of_mem_trimPieces {s : List Char} (h : s ∈ trimPieces p.pieces) : '/' ∉ s :=
  not_mem_of_mem_stretches ((prefix_of_trimPieces p.pieces).subset h)

theorem parts_of_trimPieces (h : trimPieces p.pieces = first :: kept) :
    p.parts = firstPart p.isAbsolute first ++ laterParts kept ∧
      ∀ s ∈ kept.getLast?, isPart s = true := by
  obtain ⟨first', rest, hp⟩ := List.exists_cons_of_ne_nil (stretches_ne_nil '/' p.text.toList)
  have hp : p.pieces = first' :: rest := hp
  obtain ⟨kept', off, hrest, htrim, hoff, hlast⟩ := trimPieces_split first' rest
  rw [hp, htrim] at h
  obtain ⟨rfl, rfl⟩ := List.cons.inj h
  refine ⟨?_, hlast⟩
  rw [parts_of_pieces hp, hrest, laterParts_append, hoff, List.append_nil]

theorem fileName?_of_last (front : List (List Char)) (h : trimPieces p.pieces = front ++ [last]) :
    p.fileName? = if last = [] || last = ['.'] || last = ['.', '.'] then none
      else some (String.ofList last) := by
  unfold fileName?
  rw [h, List.getLast?_concat]

theorem parent?_of_lone (h : trimPieces p.pieces = [first]) :
    p.parent? = if first = [] then none else some ⟨""⟩ := by
  unfold parent?
  rw [h]

theorem parent?_of_last (h : trimPieces p.pieces = first :: (init ++ [last])) :
    p.parent? = some (ofPieces p.isAbsolute (trimPieces (first :: init))) := by
  obtain ⟨c, cs, hcons⟩ := List.exists_cons_of_ne_nil (l := init ++ [last]) (by simp)
  have hdrop : (c :: cs).dropLast = init := by rw [← hcons, List.dropLast_concat]
  unfold parent?
  rw [h, hcons]
  simp only [hdrop]

/-- The path above has the components that are not the last one. What is trimmed off its
end is none of them. -/
theorem parts_above (h : trimPieces p.pieces = first :: (init ++ [last])) :
    ∃ above, p.parent? = some above ∧
      above.parts = firstPart p.isAbsolute first ++ laterParts init := by
  refine ⟨_, parent?_of_last h, ?_⟩
  obtain ⟨kept, off, hinit, htrim, hoff, -⟩ := trimPieces_split first init
  rw [htrim, parts_ofPieces, hinit, laterParts_append, hoff, List.append_nil]
  · intro s hs
    have hsub : first :: kept <+: trimPieces p.pieces := by
      rw [h, hinit, List.cons_prefix_cons, List.append_assoc]
      exact ⟨rfl, List.prefix_append _ _⟩
    exact notMem_of_mem_trimPieces (hsub.subset hs)
  · intro hfirst
    obtain ⟨t, ht⟩ := prefix_of_trimPieces p.pieces
    rw [h] at ht
    exact (isAbsolute_iff_pieces ht.symm).2 ⟨hfirst, by simp⟩

end Trimmed

/-- The path has no name of its own: it has no component, or ends in the root or in `..`. -/
structure IsNameless (p : Path) : Prop where
  fileName : p.fileName? = none
  lastPart : p.lastPart? ∈ [none, some "/", some ".."]

/-- The path is `above` with a name of its own behind it. -/
structure EndsIn (p above : Path) (name : String) : Prop where
  fileName : p.fileName? = some name
  parent : p.parent? = some above
  stretch : IsStretch name
  clean : name ≠ "." ∧ name ≠ ".."
  parts : p.parts = above.parts ++ [name]

theorem isStretch_ofList {piece : List Char} (hne : piece ≠ []) (hsep : '/' ∉ piece) :
    IsStretch (String.ofList piece) := by
  refine ⟨fun he => hne ?_, by rwa [String.toList_ofList]⟩
  simpa using congrArg String.toList he

theorem ofList_ne {piece : List Char} {name : String} (h : piece ≠ name.toList) :
    String.ofList piece ≠ name := by
  intro he
  rw [← he, String.toList_ofList] at h
  exact h rfl

/-- Where only the first piece is left, it is a lone name, or there is none. -/
theorem cases_of_lone {p : Path} {first : List Char} (h : trimPieces p.pieces = [first]) :
    p.IsNameless ∨ ∃ above name, p.EndsIn above name := by
  have hname := fileName?_of_last [] h
  have hparts : p.parts = firstPart p.isAbsolute first :=
    (parts_of_trimPieces h).1.trans (List.append_nil _)
  by_cases hfirst : first = []
  · left
    refine ⟨by rw [hname, hfirst]; rfl, ?_⟩
    rw [lastPart?, hparts, firstPart, if_pos hfirst]
    cases p.isAbsolute <;> decide
  rw [firstPart, if_neg hfirst] at hparts
  by_cases hdot : first = ['.']
  · left
    refine ⟨by rw [hname, hdot]; rfl, ?_⟩
    rw [lastPart?, hparts, hdot]
    decide
  by_cases hdots : first = ['.', '.']
  · left
    refine ⟨by rw [hname, hdots]; rfl, ?_⟩
    rw [lastPart?, hparts, hdots]
    decide
  right
  rw [if_neg (by simp [hfirst, hdot, hdots])] at hname
  have habove := parent?_of_lone h
  rw [if_neg hfirst] at habove
  have hsep : '/' ∉ first := notMem_of_mem_trimPieces (by rw [h]; exact List.mem_cons_self)
  exact ⟨_, _, hname, habove, isStretch_ofList hfirst hsep, ⟨ofList_ne hdot, ofList_ne hdots⟩,
    hparts⟩

/-- Behind the first piece, a last one stays that is a name of its own or `..`. -/
theorem cases_of_last {p : Path} {first last : List Char} {init : List (List Char)}
    (h : trimPieces p.pieces = first :: (init ++ [last])) :
    p.IsNameless ∨ ∃ above name, p.EndsIn above name := by
  obtain ⟨hparts, hlast⟩ := parts_of_trimPieces h
  obtain ⟨hne, hdot⟩ : last ≠ [] ∧ last ≠ ['.'] := by simpa [isPart] using hlast last (by simp)
  have hpart : laterParts [last] = [String.ofList last] := by simp [laterParts, isPart, hne, hdot]
  rw [laterParts_append, hpart, ← List.append_assoc] at hparts
  have hname := fileName?_of_last (first :: init) h
  by_cases hdots : last = ['.', '.']
  · left
    subst hdots
    refine ⟨hname, ?_⟩
    rw [lastPart?_of_concat hparts (by decide)]
    decide
  right
  rw [if_neg (by simp [hne, hdot, hdots])] at hname
  obtain ⟨above, habove, hrest⟩ := parts_above h
  have hsep : '/' ∉ last := notMem_of_mem_trimPieces (by rw [h]; simp)
  exact ⟨above, _, hname, habove, isStretch_ofList hne hsep, ⟨ofList_ne hdot, ofList_ne hdots⟩,
    by rw [hparts, hrest]⟩

/-- A path ends in a name of its own, behind what is above it, or it has none. -/
theorem isNameless_or_endsIn (p : Path) : p.IsNameless ∨ ∃ above name, p.EndsIn above name := by
  obtain ⟨first, rest, hp⟩ := List.exists_cons_of_ne_nil (stretches_ne_nil '/' p.text.toList)
  have hp : p.pieces = first :: rest := hp
  obtain ⟨kept, -, -, htrim, -, -⟩ := trimPieces_split first rest
  rw [← hp] at htrim
  rcases List.eq_nil_or_concat kept with rfl | ⟨init, last, rfl⟩
  · exact cases_of_lone htrim
  · rw [List.concat_eq_append] at htrim
    exact cases_of_last htrim

theorem EndsIn.lastPart {p above : Path} {name : String} (h : p.EndsIn above name) :
    p.lastPart? ∉ [none, some "/", some ".."] := by
  have hroot : name ≠ "/" := by
    rintro rfl
    exact h.stretch.2 (by decide)
  rw [lastPart?_of_concat h.parts h.clean.1]
  simp [hroot, h.clean.2]

end Path

namespace Archive

theorem defaultPath_of_isNameless {p : Path} (h : p.IsNameless) :
    defaultPath p = .error (.noArchiveName p) := by
  unfold defaultPath
  rw [h.fileName]

theorem defaultPath_of_endsIn {p above : Path} {name : String} (h : p.EndsIn above name) :
    defaultPath p = .ok (above.child (name ++ ".zip")) ∧
      (above.child (name ++ ".zip")).parts = above.parts ++ [name ++ ".zip"] := by
  have hzip : ∀ other : String, other.length < 4 → name ++ ".zip" ≠ other := by
    intro other hlen he
    rw [← he, String.length_append] at hlen
    have : ".zip".length = 4 := by decide
    omega
  have hstretch : Path.IsStretch (name ++ ".zip") := by
    refine ⟨hzip "" (by decide), ?_⟩
    rw [String.toList_append, List.mem_append, not_or]
    exact ⟨h.stretch.2, by decide⟩
  refine ⟨?_, Path.parts_child hstretch (hzip "." (by decide))⟩
  unfold defaultPath
  rw [h.fileName, h.parent]

theorem not_isNameless_of_ok {p q : Path} (h : defaultPath p = .ok q) : ¬ p.IsNameless := by
  intro hless
  rw [defaultPath_of_isNameless hless] at h
  cases h

/-- From the components of the archive one tells the components of the directory. -/
theorem parts_of_archive {p p' q q' : Path} (h : defaultPath p = .ok q)
    (h' : defaultPath p' = .ok q') (hparts : q.parts = q'.parts) : p.parts = p'.parts := by
  obtain ⟨above, name, hend⟩ := p.isNameless_or_endsIn.resolve_left (not_isNameless_of_ok h)
  obtain ⟨above', name', hend'⟩ := p'.isNameless_or_endsIn.resolve_left (not_isNameless_of_ok h')
  obtain ⟨hok, hq⟩ := defaultPath_of_endsIn hend
  obtain ⟨hok', hq'⟩ := defaultPath_of_endsIn hend'
  have hsame : above.child (name ++ ".zip") = q := Except.ok.inj (hok.symm.trans h)
  have hsame' : above'.child (name' ++ ".zip") = q' := Except.ok.inj (hok'.symm.trans h')
  rw [← hsame, ← hsame', hq, hq'] at hparts
  obtain ⟨habove, hlast⟩ := List.append_inj' hparts rfl
  have hname : name = name' := by
    have hchars := congrArg String.toList (List.cons.inj hlast).1
    rw [String.toList_append, String.toList_append] at hchars
    exact String.toList_inj.1 (List.append_cancel_right hchars)
  rw [hend.parts, hend'.parts, habove, hname]

/-- The archive of a directory is named after it and stands beside it; only a path that
does not end in a name gets none. So it is neither the directory nor below it, and two
directories do not share an archive. -/
theorem defaultPath_beside (p : Path) :
    (defaultPath p = .error (.noArchiveName p) ↔ p.lastPart? ∈ [none, some "/", some ".."]) ∧
    (p.lastPart? ∉ [none, some "/", some ".."] → ∃ front name q, p.parts = front ++ [name] ∧
      defaultPath p = .ok q ∧ q.parts = front ++ [name ++ ".zip"] ∧ q ≠ p ∧
      ¬ p.parts <+: q.parts) ∧
    ∀ p' q q', p.parts ≠ p'.parts → defaultPath p = .ok q → defaultPath p' = .ok q' →
      q.parts ≠ q'.parts ∧ q ≠ q' := by
  refine ⟨?_, ?_, ?_⟩
  · obtain hless | ⟨above, name, hend⟩ := p.isNameless_or_endsIn
    · exact iff_of_true (defaultPath_of_isNameless hless) hless.lastPart
    · apply iff_of_false _ hend.lastPart
      rw [(defaultPath_of_endsIn hend).1]
      intro herr
      cases herr
  · intro hlast
    have hnamed : ¬ p.IsNameless := fun hless => hlast hless.lastPart
    obtain ⟨above, name, hend⟩ := p.isNameless_or_endsIn.resolve_left hnamed
    obtain ⟨hok, hq⟩ := defaultPath_of_endsIn hend
    -- As many components, and not the same last one: nothing below the directory is like that.
    have hbelow : ¬ p.parts <+: (above.child (name ++ ".zip")).parts := by
      intro hpre
      rw [hq, hend.parts] at hpre
      have hlasts := List.append_cancel_left (hpre.eq_of_length (by simp))
      have hlen := congrArg String.length (List.cons.inj hlasts).1
      rw [String.length_append] at hlen
      have hzip : ".zip".length = 4 := by decide
      omega
    refine ⟨above.parts, name, _, hend.parts, hok, hq, ?_, hbelow⟩
    intro heq
    rw [heq] at hbelow
    exact hbelow List.prefix_rfl
  · intro p' q q' hne hok hok'
    have hdiff : q.parts ≠ q'.parts := fun hparts => hne (parts_of_archive hok hok' hparts)
    exact ⟨hdiff, fun heq => hdiff (by rw [heq])⟩

/-- Nothing is behind the name but separators and a `.`, and the name has its `.zip`
already; the other directory is named after going up. -/
theorem defaultPath_beside_trailing :
    ∃ p p' q q' : Path, p.lastPart? ∉ [none, some "/", some ".."] ∧ p.parts ≠ p'.parts ∧
      defaultPath p = .ok q ∧ defaultPath p' = .ok q' ∧ q.text = "./a/b.zip.zip" ∧
      (∃ front name q, p.parts = front ++ [name] ∧ defaultPath p = .ok q ∧
        q.parts = front ++ [name ++ ".zip"] ∧ q ≠ p ∧ ¬ p.parts <+: q.parts) ∧
      q.parts ≠ q'.parts ∧ q ≠ q' := by
  have hlast : (⟨"./a//b.zip//."⟩ : Path).lastPart? ∉ [none, some "/", some ".."] := by
    decide +kernel
  have hparts : (⟨"./a//b.zip//."⟩ : Path).parts ≠ (⟨"a/../b.zip"⟩ : Path).parts := by
    decide +kernel
  have hok : defaultPath ⟨"./a//b.zip//."⟩ = .ok ⟨"./a/b.zip.zip"⟩ := by rfl
  have hok' : defaultPath ⟨"a/../b.zip"⟩ = .ok ⟨"a/../b.zip.zip"⟩ := by rfl
  have hbeside := defaultPath_beside ⟨"./a//b.zip//."⟩
  exact ⟨_, _, _, _, hlast, hparts, hok, hok', rfl, hbeside.2.1 hlast,
    hbeside.2.2 _ _ _ hparts hok hok'⟩

end Archive

end Datapack
