import Datapack.Proofs.Boundary

/-
  Datapack.Proofs.Navigating — a marker at the front of an argument means "go there first".

  An argument behind `~` or behind separators is resolved as the rest of it would be, if
  the working location were the home directory or the root (`resolve_marked`). The two ways
  through the resolution meet at three points: trimming takes nothing away from a marker
  (`argumentText_marked`), an argument is never refused for the characters of its marker
  (`checkCharacters_marked`), and the separators behind a marker are dropped before the
  rest is joined to the anchor (`anchored_home`, `anchored_root`). What comes after that
  depends on the joined path and on the root alone.

  If the anchor of the marker is not set, the argument is refused for that reason, provided
  that none of its characters is reserved; a reserved character is told first.
-/

namespace Datapack

/-! ## The text of an argument -/

/-- Trimming at the end does not reach a character that stays. -/
theorem Text.dropEndWhile_append {p : Char → Bool} {c : Char} (h : p c = false)
    (front cs : List Char) :
    dropEndWhile p (front ++ c :: cs) = front ++ c :: dropEndWhile p cs := by
  -- From the end, `c` is met before anything in front of it.
  have hstop : (c :: front.reverse).dropWhile p = c :: front.reverse :=
    List.dropWhile_cons_of_neg (by simp [h])
  unfold dropEndWhile
  rw [List.reverse_append, List.reverse_cons, List.append_assoc, List.singleton_append,
    List.dropWhile_append, hstop]
  split
  · rename_i he
    simp [List.isEmpty_iff.1 he]
  · simp

/-- What may stand behind a marker: something that begins with neither a blank nor a
marker, and holds no colon. -/
structure IsTail (x : String) : Prop where
  nonempty : x ≠ ""
  colon : ':' ∉ x.toList
  start : ∀ c ∈ x.toList.head?, Text.isBlank c = false ∧ c ∉ ['~', '/', '\\']

def slashed (c : Char) : Char := if c = '\\' then '/' else c

theorem argumentText_of_toList {raw : String} (front : List Char) {cs : List Char} {c : Char}
    (hraw : raw.toList = front ++ c :: cs) (hc : Text.isBlank c = false)
    (hfront : ∀ e ∈ front.head?, Text.isBlank e = false) :
    argumentText raw =
      front.map slashed ++ slashed c :: (Text.dropEndWhile Text.isBlank cs).map slashed := by
  have hstart : raw.toList.dropWhile Text.isBlank = front ++ c :: cs := by
    rw [hraw]
    cases front with
    | nil => exact List.dropWhile_cons_of_neg (by simp [hc])
    | cons e front => exact List.dropWhile_cons_of_neg (by simp [hfront e rfl])
  unfold argumentText
  rw [Text.trim, Text.toList_trimEnd, Text.toList_trimStart, hstart,
    Text.dropEndWhile_append hc, List.map_append, List.map_cons]
  rfl

namespace IsTail

variable {x : String}

theorem toList_eq (hx : IsTail x) : ∃ c cs, x.toList = c :: cs ∧ Text.isBlank c = false ∧
    c ≠ '~' ∧ c ≠ '/' ∧ c ≠ '\\' := by
  cases hl : x.toList with
  | nil => exact absurd (String.toList_eq_nil_iff.1 hl) hx.nonempty
  | cons c cs =>
    obtain ⟨hblank, hmark⟩ := hx.start c (by rw [hl]; rfl)
    simp only [List.mem_cons, List.not_mem_nil, or_false, not_or] at hmark
    exact ⟨c, cs, rfl, hblank, hmark⟩

/-- The text of a tail begins like the tail, and holds only what the tail holds and
separators. -/
theorem argumentText_eq (hx : IsTail x) : ∃ c cs, argumentText x = c :: cs ∧
    c ≠ '~' ∧ c ≠ '/' ∧ ∀ e ∈ c :: cs, e ∈ x.toList ∨ e = '/' := by
  obtain ⟨c, cs, hl, hblank, htilde, hslash, hback⟩ := hx.toList_eq
  refine ⟨c, (Text.dropEndWhile Text.isBlank cs).map slashed, ?_, htilde, hslash, ?_⟩
  · rw [argumentText_of_toList [] hl hblank (by simp)]
    simp [slashed, hback]
  · intro e he
    rw [hl]
    rcases List.mem_cons.1 he with rfl | he
    · exact .inl List.mem_cons_self
    · obtain ⟨o, ho, rfl⟩ := List.mem_map.1 he
      have hmem : o ∈ cs := by
        rw [Text.dropEndWhile, List.mem_reverse] at ho
        exact List.mem_reverse.1 ((List.dropWhile_suffix _).subset ho)
      unfold slashed
      split
      · exact .inr rfl
      · exact .inl (List.mem_cons_of_mem _ hmem)

/-- A marker is not trimmed away. -/
theorem argumentText_marked (hx : IsTail x) {mark : String}
    (hm : ∀ c ∈ mark.toList, c = '~' ∨ c = '/' ∨ c = '\\') :
    argumentText (mark ++ x) = mark.toList.map slashed ++ argumentText x := by
  obtain ⟨c, cs, hl, hblank, -⟩ := hx.toList_eq
  have hhead : ∀ e ∈ mark.toList.head?, Text.isBlank e = false := by
    intro e he
    rcases hm e (List.mem_of_mem_head? he) with rfl | rfl | rfl <;> decide
  rw [argumentText_of_toList mark.toList (by rw [String.toList_append, hl]) hblank hhead,
    argumentText_of_toList [] hl hblank (by simp)]
  rfl

end IsTail

/-! ## The characters of an argument -/

theorem checkCharacters_of_no_colon {arg : List Char} (hne : arg ≠ []) (hcolon : ':' ∉ arg) :
    checkCharacters arg = match arg.find? (reservedChars.contains ·) with
      | some c => .error (.reservedChar c)
      | none => .ok () := by
  unfold checkCharacters
  cases arg.find? (reservedChars.contains ·) with
  | some c => simp only [if_neg hne]
  | none => simp only [if_neg hne, List.count_eq_zero.2 hcolon, if_neg (Nat.not_lt_zero _)]

/-- Marks in front do not matter to the check. -/
theorem checkCharacters_append {mark arg : List Char} (hm : ∀ c ∈ mark, c = '~' ∨ c = '/')
    (hne : arg ≠ []) (hcolon : ':' ∉ arg) :
    checkCharacters (mark ++ arg) = checkCharacters arg := by
  have hplain : ∀ c ∈ mark, c ≠ ':' ∧ reservedChars.contains c = false := by
    intro c hc
    rcases hm c hc with rfl | rfl <;> decide
  have hcolon' : ':' ∉ mark ++ arg := by
    rw [List.mem_append, not_or]
    exact ⟨fun h => (hplain _ h).1 rfl, hcolon⟩
  have hfind : mark.find? (reservedChars.contains ·) = none :=
    List.find?_eq_none.2 fun c hc => by rw [(hplain c hc).2]; exact Bool.false_ne_true
  rw [checkCharacters_of_no_colon (by simp [hne]) hcolon', checkCharacters_of_no_colon hne hcolon,
    List.find?_append, hfind, Option.none_or]

namespace IsTail

variable {x : String}

/-- No argument is refused for its marker. -/
theorem checkCharacters_marked (hx : IsTail x) {mark : String}
    (hm : ∀ c ∈ mark.toList, c = '~' ∨ c = '/' ∨ c = '\\') :
    checkCharacters (mark.toList.map slashed ++ argumentText x) =
      checkCharacters (argumentText x) := by
  obtain ⟨c, cs, harg, -, -, hmem⟩ := hx.argumentText_eq
  rw [harg]
  refine checkCharacters_append (fun e he => ?_) (List.cons_ne_nil _ _)
    fun h => (hmem _ h).elim hx.colon (by decide)
  obtain ⟨o, ho, rfl⟩ := List.mem_map.1 he
  rcases hm o ho with rfl | rfl | rfl
  · exact .inl rfl
  · exact .inr rfl
  · exact .inr rfl

theorem checkCharacters_ok (hx : IsTail x) (hplain : ∀ c ∈ x.toList, c ∉ reservedChars) :
    checkCharacters (argumentText x) = .ok () := by
  obtain ⟨c, cs, harg, -, -, hmem⟩ := hx.argumentText_eq
  have hfind : (c :: cs).find? (reservedChars.contains ·) = none := by
    refine List.find?_eq_none.2 fun e he => ?_
    have hfree : e ∉ reservedChars := (hmem e he).elim (hplain e) (by rintro rfl; decide)
    rw [List.contains_eq_mem, decide_eq_true_eq]
    exact hfree
  rw [harg, checkCharacters_of_no_colon (List.cons_ne_nil _ _)
    fun h => (hmem _ h).elim hx.colon (by decide), hfind]

end IsTail

namespace Anchors

/-! ## Where an argument is anchored -/

variable {a : Anchors} {d : Disk} {x seps : String}

theorem existing_of_some {anchor : Option Path} {p : Path} (ha : anchor = some p)
    (hd : d.isDir p = true) (unset : InvalidPath) (missing : Path → InvalidPath) :
    existing d anchor unset missing = .ok p := by
  subst ha
  exact if_pos hd

theorem anchored_tail (a : Anchors) (d : Disk) (hx : IsTail x) :
    a.anchored d (argumentText x) = .ok (a.cwd.join ⟨String.ofList (argumentText x)⟩) := by
  obtain ⟨c, cs, harg, htilde, hslash, -⟩ := hx.argumentText_eq
  rw [harg]
  unfold anchored
  split
  · rename_i h; exact absurd (List.cons.inj h).1 htilde
  · rename_i h; exact absurd (List.cons.inj h).1 hslash
  · rfl

/-- Separators of either kind are dropped behind a marker. -/
theorem dropWhile_separators (hx : IsTail x) {cs : List Char} (hs : ∀ c ∈ cs, c = '/' ∨ c = '\\') :
    (cs.map slashed ++ argumentText x).dropWhile (· = '/') = argumentText x := by
  obtain ⟨c, rest, harg, -, hslash, -⟩ := hx.argumentText_eq
  have hslashes : ∀ e ∈ cs.map slashed, decide (e = '/') = true := by
    intro e he
    obtain ⟨o, ho, rfl⟩ := List.mem_map.1 he
    rcases hs o ho with rfl | rfl <;> rfl
  rw [List.dropWhile_append_of_pos hslashes, harg, List.dropWhile_cons_of_neg (by simp [hslash])]

theorem anchored_home (a : Anchors) (d : Disk) (hx : IsTail x)
    (hs : ∀ c ∈ seps.toList, c = '/' ∨ c = '\\') :
    a.anchored d (("~" ++ seps).toList.map slashed ++ argumentText x) =
      (existing d a.home .homeUnset .homeMissing).map
        (·.join ⟨String.ofList (argumentText x)⟩) := by
  have htext : ("~" ++ seps).toList.map slashed = '~' :: seps.toList.map slashed := by
    simp [slashed]
  rw [htext]
  simp only [List.cons_append, anchored, dropWhile_separators hx hs]

theorem anchored_root (a : Anchors) (d : Disk) (hx : IsTail x)
    (hs : ∀ c ∈ seps.toList, c = '/' ∨ c = '\\') (hne : seps ≠ "") :
    a.anchored d (seps.toList.map slashed ++ argumentText x) =
      (existing d a.root .rootUnset .rootMissing).map
        (·.join ⟨String.ofList (argumentText x)⟩) := by
  cases hl : seps.toList with
  | nil => exact absurd (String.toList_eq_nil_iff.1 hl) hne
  | cons c cs =>
    rw [hl] at hs
    have hc : slashed c = '/' := by rcases hs c List.mem_cons_self with rfl | rfl <;> rfl
    rw [List.map_cons, hc]
    simp only [List.cons_append, anchored,
      dropWhile_separators hx fun e he => hs e (List.mem_cons_of_mem _ he)]

/-! ## Resolving -/

/-- Behind a marker whose anchor is there, the rest is resolved from that anchor. -/
theorem resolve_of_mark (hx : IsTail x) {mark : String} {p : Path}
    (hm : ∀ c ∈ mark.toList, c = '~' ∨ c = '/' ∨ c = '\\')
    (h : a.anchored d (mark.toList.map slashed ++ argumentText x) =
      .ok (p.join ⟨String.ofList (argumentText x)⟩)) (w : Wanted) (outside : Bool) :
    a.resolve d (mark ++ x) w outside = { a with cwd := p }.resolve d x w outside := by
  have htail := { a with cwd := p }.anchored_tail d hx
  have hlocate : a.locate d (mark ++ x) w outside = { a with cwd := p }.locate d x w outside := by
    simp only [locate, hx.argumentText_marked hm, hx.checkCharacters_marked hm, h, htail]
    rfl
  unfold resolve
  rw [hlocate]

/-- Behind a marker whose anchor is not there, any tail without reserved characters is
refused for the anchor. -/
theorem resolve_of_mark_error (hx : IsTail x) (hplain : ∀ c ∈ x.toList, c ∉ reservedChars)
    {mark : String} {e : InvalidPath} (hm : ∀ c ∈ mark.toList, c = '~' ∨ c = '/' ∨ c = '\\')
    (h : a.anchored d (mark.toList.map slashed ++ argumentText x) = .error e) (w : Wanted)
    (outside : Bool) : a.resolve d (mark ++ x) w outside = .invalid e := by
  have hlocate : a.locate d (mark ++ x) w outside = .error e := by
    simp only [locate, hx.argumentText_marked hm, hx.checkCharacters_marked hm,
      hx.checkCharacters_ok hplain, h]
    rfl
  exact resolve_of_error hlocate

/-- A marked argument is the rest of it, resolved from the anchor of the marker, however
many separators there are; without the anchor it is refused. -/
theorem resolve_marked (a : Anchors) (d : Disk) (w : Wanted) (outside : Bool) {x seps : String}
    (hx : IsTail x) (hs : ∀ c ∈ seps.toList, c = '/' ∨ c = '\\') :
    (∀ h, a.home = some h → d.isDir h = true →
      a.resolve d ("~" ++ seps ++ x) w outside = { a with cwd := h }.resolve d x w outside) ∧
    (∀ r, a.root = some r → d.isDir r = true → seps ≠ "" →
      a.resolve d (seps ++ x) w outside = { a with cwd := r }.resolve d x w outside) ∧
    ((∀ c ∈ x.toList, c ∉ reservedChars) →
      (a.home = none → a.resolve d ("~" ++ seps ++ x) w outside = .invalid .homeUnset) ∧
      (a.root = none → seps ≠ "" → a.resolve d (seps ++ x) w outside = .invalid .rootUnset)) := by
  have hroot : ∀ c ∈ seps.toList, c = '~' ∨ c = '/' ∨ c = '\\' := fun c hc => .inr (hs c hc)
  have hhome : ∀ c ∈ ("~" ++ seps).toList, c = '~' ∨ c = '/' ∨ c = '\\' := by
    intro c hc
    rw [String.toList_append, List.mem_append] at hc
    exact hc.elim (fun h => .inl (by simpa using h)) (hroot c)
  refine ⟨fun h hh hd => ?_, fun r hr hd hne => ?_, fun hplain => ⟨fun hh => ?_, fun hr hne => ?_⟩⟩
  · refine resolve_of_mark hx hhome ?_ w outside
    rw [anchored_home a d hx hs, existing_of_some hh hd]
    rfl
  · refine resolve_of_mark hx hroot ?_ w outside
    rw [anchored_root a d hx hs hne, existing_of_some hr hd]
    rfl
  · refine resolve_of_mark_error hx hplain hhome ?_ w outside
    rw [anchored_home a d hx hs, hh]
    rfl
  · refine resolve_of_mark_error hx hplain hroot ?_ w outside
    rw [anchored_root a d hx hs hne, hr]
    rfl

/-- The same tail behind both markers: a step up from the home stays in the root, a step
up from the root leaves it. -/
theorem resolve_marked_step_up :
    let t := ((FileTree.empty.add [] "p" .dir).add ["p"] "h" .dir).add ["p"] "x" .dir
    let d : Disk := ⟨t, ⟨[], 0⟩⟩
    let a : Anchors := ⟨⟨"/t"⟩, some ⟨"/p"⟩, some ⟨"/p/h"⟩⟩
    (IsTail "..\\x " ∧ d.isDir ⟨"/p/h"⟩ = true ∧ d.isDir ⟨"/p"⟩ = true) ∧
    a.resolve d "~\\/..\\x " .dir false = .present ⟨"/p/x"⟩ ∧
    a.resolve d "\\/..\\x " .dir false = .invalid (.outsideRoot ⟨"/x"⟩) ∧
    { a with home := none }.resolve d "~\\/..\\x " .dir false = .invalid .homeUnset ∧
    { a with root := none }.resolve d "\\/..\\x " .dir true = .invalid .rootUnset := by
  intro t d a
  have hseps : ("\\/" : String).toList = ['\\', '/'] := by decide +kernel
  have htail : ("..\\x " : String).toList = ['.', '.', '\\', 'x', ' '] := by decide +kernel
  have hs : ∀ c ∈ ("\\/" : String).toList, c = '/' ∨ c = '\\' := by simp [hseps]
  have hx : IsTail "..\\x " := by
    refine ⟨by decide, by simp [htail], fun c hc => ?_⟩
    obtain rfl : '.' = c := by simpa [htail] using hc
    decide
  have hhome : d.isDir ⟨"/p/h"⟩ = true := by decide +kernel
  have hroot : d.isDir ⟨"/p"⟩ = true := by decide +kernel
  have hplain : ∀ c ∈ ("..\\x " : String).toList, c ∉ reservedChars := by
    simp [htail, reservedChars]
  obtain ⟨home, root, -⟩ := resolve_marked a d .dir false hx hs
  have fromHome : { a with cwd := ⟨"/p/h"⟩ }.resolve d "..\\x " .dir false =
      .present ⟨"/p/x"⟩ := by decide +kernel
  have fromRoot : { a with cwd := ⟨"/p"⟩ }.resolve d "..\\x " .dir false =
      .invalid (.outsideRoot ⟨"/x"⟩) := by decide +kernel
  refine ⟨⟨hx, hhome, hroot⟩, (home _ rfl hhome).trans fromHome,
    (root _ rfl hroot (by decide)).trans fromRoot, ?_, ?_⟩
  · obtain ⟨-, -, unset⟩ := resolve_marked { a with home := none } d .dir false hx hs
    exact (unset hplain).1 rfl
  · obtain ⟨-, -, unset⟩ := resolve_marked { a with root := none } d .dir true hx hs
    exact (unset hplain).2 rfl (by decide)

end Anchors

end Datapack
