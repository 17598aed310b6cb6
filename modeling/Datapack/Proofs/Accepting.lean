import Datapack.Proofs.Navigating
import Mathlib.Data.List.Forall2
import Mathlib.Data.List.TakeWhile

/-
  Datapack.Proofs.Accepting — which path arguments are refused for how they are written.

  With the root and the home in place and paths outside the root allowed, an argument is
  refused for its characters or not at all. Which refusal it is can be read off the text,
  blanks around it aside and with one kind of separator (`Refused`, `resolve_accepts`):

  - it is empty;
  - or else it holds a reserved character, and the first one is told (`FirstReserved`);
  - or else a colon stands in it that is not that of a drive at its start (`StrayColon`).

  The check counts colons where the rule speaks of their places. The two agree because a
  drive has exactly one colon, and no colon in front of it (`count_colon_iff`).

  Blanks around an argument and the kind of each separator never matter, to this check or
  to anything after it: the text of the argument is the same (`argumentText_surrounded`,
  `argumentText_alike`). No separator is blank, so trimming finds the same ends whatever the
  kinds of the separators are (`argumentText_eq`).
-/

namespace Datapack

/-! ## The rules -/

def FirstReserved (c : Char) (s : List Char) : Prop :=
  ∃ before after, s = before ++ c :: after ∧ c ∈ reservedChars ∧ ∀ e ∈ before, e ∉ reservedChars

/-- A colon that does not come behind a single letter, with a separator behind it. -/
def StrayColon (s : List Char) : Prop :=
  ∃ before after, s = before ++ ':' :: after ∧
    ¬ ((∃ letter, before = [letter] ∧ letter.isAlpha = true) ∧ after.head? = some '/')

/-- How an argument is refused for its characters: by the first rule that it breaks. -/
inductive Refused (s : List Char) : InvalidPath → Prop
  | empty : s = [] → Refused s .empty
  | reservedChar {c : Char} : FirstReserved c s → Refused s (.reservedChar c)
  | qualifier : (∀ c ∈ s, c ∉ reservedChars) → StrayColon s → Refused s .qualifier

def AlikeChar (c e : Char) : Prop := c = e ∨ c ∈ ['/', '\\'] ∧ e ∈ ['/', '\\']

def AlikeButSeparators (a b : String) : Prop := List.Forall₂ AlikeChar a.toList b.toList

/-! ## The check of the characters -/

theorem find?_reserved_iff {c : Char} {s : List Char} :
    s.find? (reservedChars.contains ·) = some c ↔ FirstReserved c s := by
  rw [List.find?_eq_some_iff_append]
  unfold FirstReserved
  simp only [List.contains_eq_mem, decide_eq_true_eq, Bool.not_eq_true', decide_eq_false_iff_not]
  constructor
  · intro ⟨hc, before, after, hs, hbefore⟩
    exact ⟨before, after, hs, hc, hbefore⟩
  · intro ⟨before, after, hs, hc, hbefore⟩
    exact ⟨hc, before, after, hs, hbefore⟩

theorem find?_reserved_eq_none {s : List Char} :
    s.find? (reservedChars.contains ·) = none ↔ ∀ c ∈ s, c ∉ reservedChars := by
  rw [List.find?_eq_none]
  simp

theorem FirstReserved.mem {c : Char} {s : List Char} (h : FirstReserved c s) :
    c ∈ s ∧ c ∈ reservedChars := by
  obtain ⟨before, after, rfl, hc, -⟩ := h
  exact ⟨by simp, hc⟩

theorem StrayColon.mem {s : List Char} (h : StrayColon s) : ':' ∈ s := by
  obtain ⟨before, after, rfl, -⟩ := h
  simp

theorem startsWithDrive_iff {s : List Char} : startsWithDrive s = true ↔
    ∃ letter rest, s = letter :: ':' :: '/' :: rest ∧ letter.isAlpha = true := by
  constructor
  · intro h
    unfold startsWithDrive at h
    split at h
    · rename_i letter rest
      exact ⟨letter, rest, rfl, h⟩
    · cases h
  · intro ⟨letter, rest, hs, hletter⟩
    subst hs
    exact hletter

/-- The colon of a drive is the only one that is not stray. -/
theorem strayColon_drive_iff {letter : Char} (hletter : letter.isAlpha = true) {rest : List Char} :
    StrayColon (letter :: ':' :: '/' :: rest) ↔ ':' ∈ rest := by
  constructor
  · intro ⟨before, after, hs, hstray⟩
    match before, hs with
    | [], hs =>
      obtain ⟨rfl, -⟩ := List.cons.inj hs
      exact absurd hletter (by decide)
    | [b], hs =>
      obtain ⟨hb, htail⟩ := List.cons.inj hs
      have hafter : '/' :: rest = after := (List.cons.inj htail).2
      subst hb
      exact absurd ⟨⟨letter, rfl, hletter⟩, by rw [← hafter]; rfl⟩ hstray
    | b :: b' :: before, hs =>
      have htail : '/' :: rest = before ++ ':' :: after := (List.cons.inj (List.cons.inj hs).2).2
      have hmem : ':' ∈ '/' :: rest := htail ▸ List.mem_append_right _ List.mem_cons_self
      exact (List.mem_cons.1 hmem).resolve_left (by decide)
  · intro h
    obtain ⟨before, after, rfl⟩ := List.append_of_mem h
    refine ⟨letter :: ':' :: '/' :: before, after, rfl, ?_⟩
    intro ⟨⟨l, hl, _⟩, _⟩
    cases hl

theorem strayColon_iff_mem {s : List Char} (h : startsWithDrive s = false) :
    StrayColon s ↔ ':' ∈ s := by
  constructor
  · exact StrayColon.mem
  · intro hmem
    obtain ⟨before, after, rfl⟩ := List.append_of_mem hmem
    refine ⟨before, after, rfl, ?_⟩
    intro ⟨⟨letter, hl, hletter⟩, hafter⟩
    obtain ⟨rest, hrest⟩ := List.head?_eq_some_iff.1 hafter
    have hdrive : startsWithDrive (before ++ ':' :: after) = true :=
      startsWithDrive_iff.2 ⟨letter, rest, by rw [hl, hrest]; rfl, hletter⟩
    rw [hdrive] at h
    cases h

/-- More colons than a drive has are a colon out of place. -/
theorem count_colon_iff (s : List Char) :
    (if startsWithDrive s then 1 else 0) < s.count ':' ↔ StrayColon s := by
  by_cases hd : startsWithDrive s = true
  · obtain ⟨letter, rest, rfl, hletter⟩ := startsWithDrive_iff.1 hd
    have hne : letter ≠ ':' := by
      rintro rfl
      exact absurd hletter (by decide)
    have hcount : (letter :: ':' :: '/' :: rest).count ':' = rest.count ':' + 1 := by
      rw [List.count_cons_of_ne hne, List.count_cons_self, List.count_cons_of_ne (by decide)]
    rw [if_pos hd, strayColon_drive_iff hletter, hcount, ← List.count_pos_iff]
    omega
  · have hd : startsWithDrive s = false := by simpa using hd
    rw [strayColon_iff_mem hd, hd, if_neg Bool.false_ne_true, List.count_pos_iff]

/-- The check refuses by the rules, and each refusal is told where its rule is broken first. -/
theorem checkCharacters_error_iff {s : List Char} {e : InvalidPath} :
    checkCharacters s = .error e ↔ Refused s e := by
  constructor
  · intro h
    unfold checkCharacters at h
    by_cases hs : s = []
    · rw [if_pos hs] at h
      cases h
      exact .empty hs
    rw [if_neg hs] at h
    cases hf : s.find? (reservedChars.contains ·) with
    | some c =>
      simp only [hf] at h
      cases h
      exact .reservedChar (find?_reserved_iff.1 hf)
    | none =>
      simp only [hf] at h
      by_cases hcount : (if startsWithDrive s then 1 else 0) < s.count ':'
      · rw [if_pos hcount] at h
        cases h
        exact .qualifier (find?_reserved_eq_none.1 hf) ((count_colon_iff s).1 hcount)
      · rw [if_neg hcount] at h
        cases h
  · intro h
    unfold checkCharacters
    cases h with
    | empty hs => exact if_pos hs
    | @reservedChar c hc =>
      have hne : s ≠ [] := List.ne_nil_of_mem hc.mem.1
      simp only [if_neg hne, find?_reserved_iff.2 hc]
    | qualifier hplain hs =>
      have hne : s ≠ [] := List.ne_nil_of_mem hs.mem
      simp only [if_neg hne, find?_reserved_eq_none.2 hplain, if_pos ((count_colon_iff s).2 hs)]

/-- What is not refused has something in it, no reserved character and no stray colon. -/
theorem not_refused_iff {s : List Char} :
    (∀ e, ¬ Refused s e) ↔ s ≠ [] ∧ (∀ c ∈ s, c ∉ reservedChars) ∧ ¬ StrayColon s := by
  constructor
  · intro h
    have hplain : ∀ c ∈ s, c ∉ reservedChars := by
      cases hf : s.find? (reservedChars.contains ·) with
      | some c => exact absurd (.reservedChar (find?_reserved_iff.1 hf)) (h _)
      | none => exact find?_reserved_eq_none.1 hf
    exact ⟨fun hs => h _ (.empty hs), hplain, fun hs => h _ (.qualifier hplain hs)⟩
  · intro ⟨hne, hplain, hstray⟩ e he
    cases he with
    | empty hs => exact hne hs
    | reservedChar hc => exact hplain _ hc.mem.1 hc.mem.2
    | qualifier _ hs => exact hstray hs

theorem checkCharacters_ok_iff {s : List Char} :
    checkCharacters s = .ok () ↔ ∀ e, ¬ Refused s e := by
  constructor
  · intro h e he
    rw [checkCharacters_error_iff.2 he] at h
    cases h
  · intro h
    cases hs : checkCharacters s with
    | ok => rfl
    | error e => exact absurd (checkCharacters_error_iff.1 hs) (h e)

/-! ## The text of an argument -/

theorem isBlank_slashed (c : Char) : Text.isBlank (slashed c) = Text.isBlank c := by
  unfold slashed
  by_cases hc : c = '\\'
  · subst hc
    decide
  · rw [if_neg hc]

theorem argumentText_eq (raw : String) : argumentText raw =
    Text.dropEndWhile Text.isBlank ((raw.toList.map slashed).dropWhile Text.isBlank) := by
  have hblank : Text.isBlank ∘ slashed = Text.isBlank := funext isBlank_slashed
  have htrim : (Text.trim raw).toList =
      Text.dropEndWhile Text.isBlank (raw.toList.dropWhile Text.isBlank) := by
    rw [Text.trim, Text.toList_trimEnd, Text.toList_trimStart]
  unfold argumentText Text.dropEndWhile
  rw [htrim, List.dropWhile_map, hblank, ← List.map_reverse, List.dropWhile_map, hblank,
    ← List.map_reverse]
  rfl

theorem AlikeChar.slashed_eq {c e : Char} (h : AlikeChar c e) : slashed c = slashed e := by
  rcases h with rfl | ⟨hc, he⟩
  · rfl
  · simp only [List.mem_cons, List.not_mem_nil, or_false] at hc he
    rcases hc with rfl | rfl <;> rcases he with rfl | rfl <;> rfl

/-- The kinds of its separators make no difference to an argument. -/
theorem argumentText_alike {a b : String} (h : AlikeButSeparators a b) :
    argumentText a = argumentText b := by
  have same : ∀ {cs es : List Char}, List.Forall₂ AlikeChar cs es →
      cs.map slashed = es.map slashed := by
    intro cs es h
    induction h with
    | nil => rfl
    | cons hc _ ih => rw [List.map_cons, List.map_cons, hc.slashed_eq, ih]
  rw [argumentText_eq, argumentText_eq, same h]

theorem dropEndWhile_append_of_all {p : Char → Bool} {back : List Char} (h : ∀ c ∈ back, p c = true)
    (cs : List Char) : Text.dropEndWhile p (cs ++ back) = Text.dropEndWhile p cs := by
  unfold Text.dropEndWhile
  rw [List.reverse_append, List.dropWhile_append_of_pos fun c hc => h c (List.mem_reverse.1 hc)]

/-- The blanks around an argument make no difference to it. -/
theorem argumentText_surrounded {front back : String}
    (hfront : ∀ c ∈ front.toList, Text.isBlank c = true)
    (hback : ∀ c ∈ back.toList, Text.isBlank c = true) (raw : String) :
    argumentText (front ++ raw ++ back) = argumentText raw := by
  have htrim : Text.trim (front ++ raw ++ back) = Text.trim raw := by
    apply String.toList_inj.1
    simp only [Text.trim, Text.toList_trimEnd, Text.toList_trimStart, String.toList_append]
    rw [List.append_assoc, List.dropWhile_append_of_pos hfront, List.dropWhile_append]
    by_cases he : raw.toList.dropWhile Text.isBlank = []
    · -- Nothing but blanks: they go from the front, all of them.
      have hall : back.toList.dropWhile Text.isBlank = [] :=
        List.dropWhile_eq_nil_iff.2 hback
      simp [he, hall]
    · rw [if_neg (by simpa using he), dropEndWhile_append_of_all hback]
  unfold argumentText
  rw [htrim]

namespace Anchors

/-! ## Resolving -/

variable {a : Anchors} {d : Disk} {raw : String} {w : Wanted}

/-- With root and home in place, any argument can be anchored. -/
theorem anchored_of_isDir {root home : Path} (hroot : a.root = some root) (hr : d.isDir root = true)
    (hhome : a.home = some home) (hh : d.isDir home = true) (arg : List Char) :
    ∃ p, a.anchored d arg = .ok p := by
  unfold anchored
  split
  · rw [existing_of_some hhome hh]
    exact ⟨_, rfl⟩
  · rw [existing_of_some hroot hr]
    exact ⟨_, rfl⟩
  · exact ⟨_, rfl⟩

/-- Where anything can be anchored and nothing is outside, the characters decide. -/
theorem resolve_cases {p : Path} (h : a.anchored d (argumentText raw) = .ok p) (w : Wanted) :
    (∃ e, checkCharacters (argumentText raw) = .error e ∧ a.resolve d raw w true = .invalid e) ∨
    checkCharacters (argumentText raw) = .ok () ∧
      ∃ p, a.resolve d raw w true = .present p ∨ a.resolve d raw w true = .absent p := by
  cases hc : checkCharacters (argumentText raw) with
  | error e =>
    left
    refine ⟨e, rfl, resolve_of_error ?_⟩
    simp only [locate, hc]
    rfl
  | ok =>
    right
    have hsome : (a.resolve d raw w true).path? = some p.normalize := by
      apply path?_of_ok
      simp only [locate, hc, h]
      rfl
    refine ⟨rfl, ?_⟩
    cases hres : a.resolve d raw w true with
    | invalid e =>
      rw [hres] at hsome
      cases hsome
    | absent q => exact ⟨q, .inr rfl⟩
    | present q => exact ⟨q, .inl rfl⟩

theorem resolve_congr {raw' : String} (h : argumentText raw = argumentText raw') (w : Wanted)
    (outside : Bool) : a.resolve d raw w outside = a.resolve d raw' w outside := by
  unfold resolve locate
  rw [h]

/-- Path arguments are accepted by their grammar, the rules in order; blanks around an
argument and the kind of its separators make no difference. -/
theorem resolve_accepts (a : Anchors) (d : Disk) (raw : String) (w : Wanted) {root home : Path}
    (hroot : a.root = some root) (hr : d.isDir root = true) (hhome : a.home = some home)
    (hh : d.isDir home = true) :
    (∀ e, a.resolve d raw w true = .invalid e ↔ Refused (argumentText raw) e) ∧
    ((∃ p, a.resolve d raw w true = .present p ∨ a.resolve d raw w true = .absent p) ↔
      ∀ e, ¬ Refused (argumentText raw) e) ∧
    (∀ front back : String, (∀ c ∈ front.toList, Text.isBlank c = true) →
      (∀ c ∈ back.toList, Text.isBlank c = true) → ∀ outside,
      a.resolve d (front ++ raw ++ back) w outside = a.resolve d raw w outside) ∧
    ∀ raw', AlikeButSeparators raw raw' → ∀ outside,
      a.resolve d raw' w outside = a.resolve d raw w outside := by
  obtain ⟨p, hp⟩ := anchored_of_isDir hroot hr hhome hh (argumentText raw)
  have decided := resolve_cases hp w
  refine ⟨?_, ?_, ?_, ?_⟩
  · intro e
    rw [← checkCharacters_error_iff]
    obtain ⟨e', hc, hres⟩ | ⟨hc, p, hres⟩ := decided
    · rw [hc, hres, Resolution.invalid.injEq, Except.error.injEq]
    · rw [hc]
      rcases hres with hres | hres <;> simp [hres]
  · rw [← checkCharacters_ok_iff]
    obtain ⟨e, hc, hres⟩ | ⟨hc, haccepted⟩ := decided
    · simp [hc, hres]
    · exact iff_of_true haccepted hc
  · intro front back hfront hback outside
    exact resolve_congr (argumentText_surrounded hfront hback raw) w outside
  · intro raw' h outside
    exact resolve_congr (argumentText_alike h).symm w outside

/-- A drive behind a blank, with a separator of the other kind; a drive behind a marker,
which is none; and a reserved character in front of another and of a colon. -/
theorem resolve_accepts_drive :
    let d : Disk := ⟨FileTree.empty.add [] "p" .dir, ⟨[], 0⟩⟩
    let a : Anchors := ⟨⟨"/p"⟩, some ⟨"/p"⟩, some ⟨"/p"⟩⟩
    (a.root = some ⟨"/p"⟩ ∧ a.home = some ⟨"/p"⟩ ∧ d.isDir ⟨"/p"⟩ = true ∧
      AlikeButSeparators "C:\\x" "C:/x") ∧
    (∀ e, ¬ Refused (argumentText "C:\\x") e) ∧
    a.resolve d (" " ++ "C:\\x" ++ "") .dir true = a.resolve d "C:/x" .dir true ∧
    a.resolve d "~C:\\x" .dir true = .invalid .qualifier ∧
    a.resolve d "a?b*:" .file true = .invalid (.reservedChar '?') := by
  intro d a
  have hdir : d.isDir ⟨"/p"⟩ = true := by decide +kernel
  have halike : AlikeButSeparators "C:\\x" "C:/x" := by
    have hback : "C:\\x".toList = ['C', ':', '\\', 'x'] := by decide +kernel
    have hslash : "C:/x".toList = ['C', ':', '/', 'x'] := by decide +kernel
    simp [AlikeButSeparators, AlikeChar, hback, hslash]
  obtain ⟨-, accepted, surrounded, alike⟩ :=
    resolve_accepts a d "C:\\x" .dir rfl hdir rfl hdir
  have marked := (resolve_accepts a d "~C:\\x" .dir rfl hdir rfl hdir).1
  have reserved := (resolve_accepts a d "a?b*:" .file rfl hdir rfl hdir).1
  refine ⟨⟨rfl, rfl, hdir, halike⟩, ?_, ?_, ?_, ?_⟩
  · exact accepted.1 ⟨⟨"/p/C:/x"⟩, .inr (by decide +kernel)⟩
  · rw [surrounded " " "" (List.all_eq_true.1 (by decide +kernel)) (by simp), alike _ halike]
  · have htext : argumentText "~C:\\x" = ['~', 'C'] ++ ':' :: ['/', 'x'] := by decide +kernel
    refine (marked _).2 (.qualifier (by simp [htext, reservedChars]) ⟨_, _, htext, ?_⟩)
    intro hdrive
    obtain ⟨⟨letter, hl, -⟩, -⟩ := hdrive
    cases hl
  · have htext : argumentText "a?b*:" = ['a'] ++ '?' :: ['b', '*', ':'] := by decide +kernel
    exact (reserved _).2 (.reservedChar ⟨_, _, htext, by decide, by simp [reservedChars]⟩)

end Anchors

end Datapack
