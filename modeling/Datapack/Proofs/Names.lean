import Datapack.Path

/-
  Datapack.Proofs.Names — the names along a path, through everything that is done to its
  text.

  A path's text is cut at separators into its names, and put together from names again.
  Both ways agree (`names_ofNames`), so joining appends names (`names_join`), folding a
  path folds its names (`names_normalize`), and a folded absolute path is the canonical
  path of a place (`normalize_eq_ofPlace`).

  For absolute paths the rest can be said by names alone: `isUnder_iff` (a prefix of
  components), `names_parent?` (a path above has a first stretch of the names) and, if no
  name is `.` or `..`, `IsClean.parent?_cases` (all names but the last). What a directive works
  on is always a canonical path (`Path.IsCanonical`), since folding makes one of any
  absolute path (`isCanonical_normalize`).
-/

namespace Datapack

open Text

/-! ## Cutting and putting together -/

theorem stretches_intercalate {sep : Char} {pieces : List (List Char)} (hne : pieces ≠ [])
    (h : ∀ s ∈ pieces, sep ∉ s) : stretches sep ([sep].intercalate pieces) = pieces := by
  induction pieces with
  | nil => exact absurd rfl hne
  | cons s rest ih =>
    have hs := h s List.mem_cons_self
    cases rest with
    | nil => simpa using stretches_eq_singleton hs
    | cons t rest =>
      have := ih (by simp) fun u hu => h u (List.mem_cons_of_mem _ hu)
      rw [List.intercalate_cons_cons, List.append_assoc, List.singleton_append, stretches_append,
        stretches_eq_singleton hs, this]
      rfl

/-- Joined again, the stretches are the text. -/
theorem intercalate_stretches (sep : Char) (cs : List Char) :
    [sep].intercalate (stretches sep cs) = cs := by
  induction cs with
  | nil => rfl
  | cons c cs ih =>
    obtain ⟨s, ss, hs⟩ := List.exists_cons_of_ne_nil (stretches_ne_nil sep cs)
    simp only [stretches]
    split
    · rename_i hc
      rw [hs] at ih ⊢
      rw [List.intercalate_cons_cons, ih, hc]
      rfl
    · rw [hs] at ih ⊢
      cases ss with
      | nil => simpa using ih
      | cons t ts =>
        rw [List.intercalate_cons_cons] at ih ⊢
        rw [← ih]
        rfl

theorem intercalate_prefix {sep : List Char} {ps qs : List (List Char)} (h : ps <+: qs) :
    sep.intercalate ps <+: sep.intercalate qs := by
  induction ps generalizing qs with
  | nil => exact List.nil_prefix
  | cons s ps ih =>
    obtain ⟨t, ht⟩ := h
    subst ht
    cases ps with
    | nil =>
      cases t with
      | nil => exact List.prefix_refl _
      | cons u t =>
        rw [List.singleton_append, List.intercalate_cons_cons, List.append_assoc]
        simp
    | cons u ps =>
      rw [List.cons_append, List.cons_append, List.intercalate_cons_cons,
        List.intercalate_cons_cons]
      exact (List.prefix_append_right_inj _).2 (ih (List.prefix_append _ _))

theorem length_stretches_le (sep : Char) (cs : List Char) :
    (stretches sep cs).length ≤ cs.length + 1 := by
  induction cs with
  | nil => simp [stretches]
  | cons c cs ih =>
    simp only [stretches]
    split
    · simpa using ih
    · split
      · simp
      · rename_i s ss he
        rw [he] at ih
        simp only [List.length_cons] at ih ⊢
        omega

namespace Path

/-- A text that can be a stretch between separators and is not dropped. -/
def IsStretch (name : String) : Prop := name ≠ "" ∧ '/' ∉ name.toList

theorem isStretch_of_mem_names {p : Path} {name : String} (h : name ∈ p.names) :
    IsStretch name := by
  simp only [names, List.mem_map, List.mem_filter, decide_eq_true_eq] at h
  obtain ⟨cs, ⟨hc, hne⟩, rfl⟩ := h
  refine ⟨fun he => hne ?_, by simpa using not_mem_of_mem_stretches hc⟩
  simpa using congrArg String.toList he

theorem mem_of_mem_foldl {start names : List String} {name : String}
    (h : name ∈ names.foldl foldName start) : name ∈ start ∨ name ∈ names := by
  induction names generalizing start with
  | nil => exact .inl h
  | cons n names ih =>
    rcases ih h with h | h
    · unfold foldName at h
      split at h
      · exact .inl h
      · split at h
        · exact .inl (List.dropLast_subset _ h)
        · rcases List.mem_append.1 h with h | h
          · exact .inl h
          · exact .inr (by simp_all)
    · exact .inr (List.mem_cons_of_mem _ h)

theorem mem_of_mem_fold {names : List String} {name : String} (h : name ∈ fold names) :
    name ∈ names := by
  rcases mem_of_mem_foldl h with h | h
  · cases h
  · exact h

theorem isStretch_of_mem_fold_names {p : Path} : ∀ name ∈ fold p.names, IsStretch name :=
  fun _ h => isStretch_of_mem_names (mem_of_mem_fold h)

/-- The pieces of a path with these names. -/
theorem pieces_ofNames {ns : List String} (h : ∀ n ∈ ns, IsStretch n) (absolute : Bool) :
    (ofNames absolute ns).pieces =
      (if absolute then [[]] else []) ++ if ns = [] then [[]] else ns.map String.toList := by
  have cut : stretches '/' ("/".intercalate ns).toList =
      if ns = [] then [[]] else ns.map String.toList := by
    by_cases he : ns = []
    · subst he; rfl
    · rw [if_neg he, String.toList_intercalate]
      refine stretches_intercalate (by simpa using he) fun s hs => ?_
      obtain ⟨n, hn, rfl⟩ := List.mem_map.1 hs
      exact (h n hn).2
  unfold pieces ofNames
  cases absolute with
  | false => simpa using cut
  | true =>
    have : ("/" ++ "/".intercalate ns).toList = [] ++ '/' :: ("/".intercalate ns).toList := by
      simp
    simp only [if_true, this, stretches_append, cut]
    rfl

theorem names_ofNames {ns : List String} (h : ∀ n ∈ ns, IsStretch n) (absolute : Bool) :
    (ofNames absolute ns).names = ns := by
  have keep : (ns.map String.toList).filter (· ≠ []) = ns.map String.toList := by
    refine List.filter_eq_self.2 fun s hs => ?_
    obtain ⟨n, hn, rfl⟩ := List.mem_map.1 hs
    have := (h n hn).1
    simp only [decide_eq_true_eq]
    exact fun he => this (String.toList_inj.1 he)
  unfold names
  rw [pieces_ofNames h]
  by_cases he : ns = []
  · subst he; cases absolute <;> rfl
  · rw [if_neg he, List.filter_append, keep]
    cases absolute <;> simp [Function.comp_def]

@[simp] theorem isAbsolute_ofPlace (place : Place) : (ofPlace place).isAbsolute = true := by
  simp [isAbsolute, ofPlace, ofNames]

theorem isAbsolute_ofNames {ns : List String} (h : ∀ n ∈ ns, IsStretch n) (absolute : Bool) :
    (ofNames absolute ns).isAbsolute = absolute := by
  cases absolute with
  | true => exact isAbsolute_ofPlace ns
  | false =>
    cases ns with
    | nil => rfl
    | cons n ns =>
      obtain ⟨hne, hsep⟩ := h n List.mem_cons_self
      cases hc : n.toList with
      | nil => exact absurd (String.toList_inj.1 hc) hne
      | cons c cs =>
        have : c ≠ '/' := by
          rintro rfl
          exact hsep (by rw [hc]; exact List.mem_cons_self)
        cases ns <;> simp [isAbsolute, ofNames, String.toList_intercalate, hc, this]

/-- The path of a place ends in its last name. -/
theorem endsInSeparator_ofPlace {place : Place} (h : ∀ n ∈ place, IsStretch n)
    (hne : place ≠ []) : (ofPlace place).endsInSeparator = false := by
  refine Bool.eq_false_iff.2 fun hs => ?_
  simp only [endsInSeparator, beq_iff_eq] at hs
  obtain ⟨cs, hc⟩ := List.getLast?_eq_some_iff.1 hs
  -- The separator at the end would leave an empty piece behind it.
  have hempty : (ofPlace place).pieces.getLast? = some [] := by
    have hcut : (ofPlace place).pieces = stretches '/' cs ++ [[]] := by
      rw [pieces, hc, stretches_append]
      rfl
    rw [hcut, List.getLast?_concat]
  have hpieces : (ofPlace place).pieces = [] :: place.map String.toList := by
    have := pieces_ofNames h true
    rw [if_neg hne] at this
    exact this
  obtain ⟨init, last, rfl⟩ := (List.eq_nil_or_concat place).resolve_left hne
  rw [hpieces, List.concat_eq_append, List.map_append, List.map_singleton, ← List.cons_append,
    List.getLast?_concat] at hempty
  have hlast := (h last (by simp)).1
  exact hlast (String.toList_inj.1 (Option.some.inj hempty))

/-! ## Folding -/

@[simp] theorem names_normalize (p : Path) : p.normalize.names = fold p.names :=
  names_ofNames isStretch_of_mem_fold_names _

@[simp] theorem isAbsolute_normalize (p : Path) : p.normalize.isAbsolute = p.isAbsolute :=
  isAbsolute_ofNames isStretch_of_mem_fold_names _

theorem fold_concat (names : List String) (name : String) :
    fold (names ++ [name]) = foldName (fold names) name := by
  simp [fold]

theorem prefix_foldName {top folded : List String} (h : top <+: folded) {name : String}
    (hn : name ≠ "..") : top <+: foldName folded name := by
  rw [foldName, if_neg hn]
  split
  · exact h
  · exact h.trans (List.prefix_append _ _)

/-- A name that takes back at most the one in front of it. -/
theorem prefix_foldName_concat {top folded : List String} (h : top <+: folded) (name last : String) :
    top <+: foldName (folded ++ [last]) name := by
  by_cases hn : name = ".."
  · subst hn
    simpa [foldName] using h
  · exact prefix_foldName (h.trans (List.prefix_append _ _)) hn

theorem normalize_eq_ofPlace {p : Path} (h : p.isAbsolute = true) :
    p.normalize = ofPlace (fold p.names) := by
  rw [normalize, h, ofPlace]

theorem names_ofPlace {place : Place} (h : ∀ n ∈ place, IsStretch n) :
    (ofPlace place).names = place := names_ofNames h true

/-! ## Joining -/

@[simp] theorem isAbsolute_join (base rest : Path) :
    (base.join rest).isAbsolute = (base.isAbsolute || rest.isAbsolute) := by
  unfold join
  by_cases hr : rest.isAbsolute = true
  · simp [hr]
  · simp only [hr, Bool.false_eq_true, if_false, Bool.or_false]
    split
    · by_cases hb : base.text = ""
      · simp_all [isAbsolute]
      · cases hc : base.text.toList with
        | nil => exact absurd (String.toList_inj.1 hc) hb
        | cons c cs => simp [isAbsolute, hc]
    · rename_i hb
      simp only [Bool.or_eq_true, decide_eq_true_eq, not_or] at hb
      cases hc : base.text.toList with
      | nil => exact absurd (String.toList_inj.1 hc) hb.1
      | cons c cs => simp [isAbsolute, hc]

/-- The names of a text and another behind a separator. -/
theorem names_separated (a b : List Char) :
    (⟨String.ofList (a ++ '/' :: b)⟩ : Path).names =
      (⟨String.ofList a⟩ : Path).names ++ (⟨String.ofList b⟩ : Path).names := by
  simp only [names, pieces, String.toList_ofList, stretches_append, List.filter_append,
    List.map_append]

theorem names_join {base rest : Path} (h : rest.isAbsolute = false) :
    (base.join rest).names = base.names ++ rest.names := by
  unfold join
  rw [h, if_neg (by simp)]
  split
  · rename_i hb
    simp only [Bool.or_eq_true, decide_eq_true_eq] at hb
    by_cases he : base.text = ""
    · have : base.names = [] := by simp [names, pieces, he, stretches]
      simp [he, this]
    · -- The separator at the end of the base is the one between the two.
      have hs : base.endsInSeparator = true := hb.resolve_left he
      simp only [endsInSeparator, beq_iff_eq] at hs
      obtain ⟨a, ha⟩ := List.getLast?_eq_some_iff.1 hs
      have hbase : base = ⟨String.ofList (a ++ '/' :: [])⟩ := by
        cases base; simp only [← ha, String.ofList_toList]
      have htext : base.text ++ rest.text = String.ofList (a ++ '/' :: rest.text.toList) := by
        rw [hbase]; simp [← String.toList_inj]
      rw [htext, names_separated, hbase, names_separated]
      simp [names, pieces, stretches]
  · have : base.text ++ "/" ++ rest.text =
        String.ofList (base.text.toList ++ '/' :: rest.text.toList) := by
      simp [← String.toList_inj]
    rw [this, names_separated, String.ofList_toList, String.ofList_toList]

theorem names_of_isStretch {name : String} (h : IsStretch name) : (⟨name⟩ : Path).names = [name] := by
  have : name.toList ≠ [] := fun he => h.1 (String.toList_inj.1 he)
  simp [names, pieces, stretches_eq_singleton h.2, this]

theorem isAbsolute_of_isStretch {name : String} (h : IsStretch name) :
    (⟨name⟩ : Path).isAbsolute = false := by
  simpa [ofNames] using isAbsolute_ofNames (List.forall_mem_singleton.2 h) false

theorem names_child {base : Path} {name : String} (h : IsStretch name) :
    (base.child name).names = base.names ++ [name] := by
  rw [child, names_join (isAbsolute_of_isStretch h), names_of_isStretch h]

@[simp] theorem isAbsolute_child {base : Path} {name : String} (h : IsStretch name) :
    (base.child name).isAbsolute = base.isAbsolute := by
  rw [child, isAbsolute_join, isAbsolute_of_isStretch h, Bool.or_false]

/-! ## Being under -/

/-- A list lies in front of all but the last of another if it lies properly in front. -/
theorem prefix_dropLast_iff {α : Type} {a b : List α} (hb : b ≠ []) :
    a <+: b.dropLast ↔ a <+: b ∧ a ≠ b := by
  constructor
  · intro h
    refine ⟨h.trans (List.dropLast_prefix b), ?_⟩
    rintro rfl
    have := h.length_le
    have := List.length_pos_iff.2 hb
    rw [List.length_dropLast] at *
    omega
  · rintro ⟨h, hne⟩
    rw [← List.dropLast_concat_getLast hb, List.prefix_concat_iff] at h
    rcases h with h | h
    · exact absurd (h.trans (List.dropLast_concat_getLast hb)) hne
    · exact h

theorem components_of_isAbsolute {p : Path} (h : p.isAbsolute = true) :
    p.components = "/" :: p.names := by rw [components, if_pos h]

theorem isUnder_iff {p root : Path} (hp : p.isAbsolute = true) (hr : root.isAbsolute = true) :
    p.isUnder root = true ↔ root.names <+: p.names := by
  rw [isUnder, components_of_isAbsolute hp, components_of_isAbsolute hr, List.isPrefixOf_iff_prefix]
  simp [List.cons_prefix_cons]

/-! ## Paths above -/

theorem pieces_of_isAbsolute {p : Path} (h : p.isAbsolute = true) : ∃ ps, p.pieces = [] :: ps := by
  simp only [isAbsolute, beq_iff_eq] at h
  obtain ⟨cs, hc⟩ := List.head?_eq_some_iff.1 h
  exact ⟨stretches '/' cs, by rw [pieces, hc, stretches, if_pos rfl]⟩

theorem prefix_of_trimPieces (ps : List (List Char)) : trimPieces ps <+: ps := by
  cases ps with
  | nil => exact List.prefix_refl _
  | cons first rest =>
    refine List.cons_prefix_cons.2 ⟨rfl, ?_⟩
    have := List.dropWhile_suffix (l := rest.reverse) fun piece => piece = [] || piece = ['.']
    simpa using List.reverse_prefix.2 this

theorem toList_intercalate_ofList (ps : List (List Char)) :
    ("/".intercalate (ps.map String.ofList)).toList = ['/'].intercalate ps := by
  rw [String.toList_intercalate, List.map_map]
  simp [Function.comp_def]

theorem names_ofPieces {ps : List (List Char)} (hne : ps ≠ []) (h : ∀ s ∈ ps, '/' ∉ s)
    (absolute : Bool) :
    (ofPieces absolute ps).names = (ps.filter (· ≠ [])).map String.ofList := by
  unfold ofPieces
  split
  · rename_i hr
    simp only [Bool.and_eq_true, decide_eq_true_eq] at hr
    rw [hr.2]; rfl
  · rw [names, pieces, toList_intercalate_ofList, stretches_intercalate hne h]

theorem isAbsolute_ofPieces (ps : List (List Char)) : (ofPieces true ([] :: ps)).isAbsolute = true := by
  unfold ofPieces
  cases ps with
  | nil => rfl
  | cons s ps =>
    rw [if_neg (by simp), isAbsolute, toList_intercalate_ofList, List.intercalate_cons_cons]
    rfl

/-- The path above has a first stretch of the names, and starts at the root as well. -/
theorem names_parent? {p q : Path} (h : p.parent? = some q) : q.names <+: p.names := by
  have hp := prefix_of_trimPieces p.pieces
  unfold parent? at h
  split at h
  · cases h
  · split at h
    · cases h
    · cases h
      exact List.nil_prefix
  · rename_i first rest _ he
    cases h
    rw [he] at hp
    have hq : trimPieces (first :: rest.dropLast) <+: p.pieces :=
      (prefix_of_trimPieces _).trans ((List.cons_prefix_cons.2 ⟨rfl, List.dropLast_prefix rest⟩).trans hp)
    rw [names_ofPieces (by simp [trimPieces]) fun s hs => not_mem_of_mem_stretches (hq.subset hs)]
    exact (hq.filter _).map _

theorem isAbsolute_parent? {p q : Path} (hp : p.isAbsolute = true) (h : p.parent? = some q) :
    q.isAbsolute = true := by
  obtain ⟨ps, hps⟩ := pieces_of_isAbsolute hp
  unfold parent? at h
  rw [hps] at h
  simp only [trimPieces, hp] at h
  split at h
  · cases h
  · rename_i first he
    obtain ⟨rfl, -⟩ := List.cons.inj he
    simp at h
  · rename_i first rest _ he
    obtain ⟨rfl, -⟩ := List.cons.inj he
    cases h
    exact isAbsolute_ofPieces _

/-- Its text is the start of the text below, which begins with a separator. -/
theorem text_parent? {p q : Path} (hp : p.isAbsolute = true) (h : p.parent? = some q) :
    q.text.toList <+: p.text.toList := by
  have hpre := prefix_of_trimPieces p.pieces
  have hjoin : ['/'].intercalate p.pieces = p.text.toList := intercalate_stretches '/' _
  unfold parent? at h
  split at h
  · cases h
  · split at h
    · cases h
    · cases h
      exact List.nil_prefix
  · rename_i first rest _ he
    cases h
    rw [he] at hpre
    have hinit : first :: rest.dropLast <+: first :: rest :=
      List.cons_prefix_cons.2 ⟨rfl, List.dropLast_prefix rest⟩
    have hq : trimPieces (first :: rest.dropLast) <+: p.pieces :=
      (prefix_of_trimPieces _).trans (hinit.trans hpre)
    unfold ofPieces
    split
    · simp only [isAbsolute, beq_iff_eq] at hp
      obtain ⟨cs, hc⟩ := List.head?_eq_some_iff.1 hp
      rw [hc]
      exact List.cons_prefix_cons.2 ⟨rfl, List.nil_prefix⟩
    · rw [toList_intercalate_ofList, ← hjoin]
      exact intercalate_prefix hq

theorem trimPieces_of_clean (first : List Char) {rest : List (List Char)}
    (h : ∀ s ∈ rest.getLast?, s ≠ [] ∧ s ≠ ['.']) :
    trimPieces (first :: rest) = first :: rest := by
  have : (rest.reverse.dropWhile fun piece => piece = [] || piece = ['.']) = rest.reverse := by
    cases hr : rest.reverse with
    | nil => rfl
    | cons s ss =>
      have hl : rest.getLast? = some s := by rw [← List.head?_reverse, hr]; rfl
      have := h s hl
      simp [this.1, this.2]
  rw [trimPieces, this, List.reverse_reverse]

/-- The path above a place that is not the root. -/
theorem parent?_ofPlace {place : Place} (h : ∀ n ∈ place, IsStretch n) (hc : Clean place) :
    (ofPlace place).parent? = if place = [] then none else some (ofPlace place.dropLast) := by
  have hpieces : (ofPlace place).pieces =
      [] :: if place = [] then [[]] else place.map String.toList := pieces_ofNames h true
  have clean : ∀ ns : List String, (∀ n ∈ ns, IsStretch n) → Clean ns →
      ∀ s ∈ (ns.map String.toList).getLast?, s ≠ [] ∧ s ≠ ['.'] := by
    intro ns hn hns s hs
    obtain ⟨n, hm, rfl⟩ := List.mem_map.1 (List.mem_of_getLast? hs)
    refine ⟨fun he => (hn n hm).1 (String.toList_inj.1 he), fun he => (hns n hm).1 ?_⟩
    exact String.toList_inj.1 he
  unfold parent?
  rw [hpieces]
  by_cases he : place = []
  · subst he; rfl
  have hlast := trimPieces_of_clean [] (clean place h hc)
  have hinit := trimPieces_of_clean [] (clean place.dropLast
    (fun n hn => h n (List.dropLast_subset _ hn)) fun n hn => hc n (List.dropLast_subset _ hn))
  rw [List.map_dropLast] at hinit
  obtain ⟨s, rest, hs⟩ := List.exists_cons_of_ne_nil (l := place.map String.toList) (by simpa using he)
  rw [if_neg he, if_neg he, hlast, hs]
  simp only [Option.some.injEq]
  rw [← hs, hinit, isAbsolute_ofPlace, ofPieces, ofPlace, ofNames]
  by_cases hd : place.dropLast = []
  · simp [← List.map_dropLast, hd]
  · obtain ⟨n, ns, hn⟩ := List.exists_cons_of_ne_nil hd
    simp [← List.map_dropLast, hn, String.intercalate_cons_cons]

/-! ## Clean paths -/

/-- A path from the root without `.` and `..`; separators may be doubled or trail. -/
structure IsClean (p : Path) : Prop where
  isAbsolute : p.isAbsolute = true
  clean : Clean p.names

/-- What is trimmed off are empty pieces, if there are no others to trim. -/
theorem filter_trimPieces {ps : List (List Char)} (h : ['.'] ∉ ps) :
    (trimPieces ps).filter (· ≠ []) = ps.filter (· ≠ []) := by
  cases ps with
  | nil => rfl
  | cons first rest =>
    have hcut := List.takeWhile_append_dropWhile (l := rest.reverse)
      (p := fun piece => piece = [] || piece = ['.'])
    generalize hoff : rest.reverse.takeWhile _ = off at hcut
    generalize hon : rest.reverse.dropWhile _ = on at hcut
    have hempty : off.reverse.filter (· ≠ []) = [] := by
      refine List.filter_eq_nil_iff.2 fun piece hm => ?_
      have hm : piece ∈ off := List.mem_reverse.1 hm
      have hbad : (piece = [] || piece = ['.']) = true :=
        List.all_eq_true.1 List.all_takeWhile piece (hoff ▸ hm)
      have hne : piece ≠ ['.'] := by
        rintro rfl
        have : ['.'] ∈ rest.reverse := by
          rw [← hcut]
          exact List.mem_append_left _ hm
        exact h (List.mem_cons_of_mem _ (List.mem_reverse.1 this))
      simpa [hne] using hbad
    have hrest : rest = on.reverse ++ off.reverse := by
      rw [← List.reverse_append, hcut, List.reverse_reverse]
    rw [trimPieces, hon]
    conv => rhs; rw [hrest]
    rw [List.filter_cons, List.filter_cons, List.filter_append, hempty, List.append_nil]

/-- The first piece stays, and behind it no empty piece is the last one. -/
theorem trimPieces_cons (first : List Char) (rest : List (List Char)) :
    ∃ kept, trimPieces (first :: rest) = first :: kept ∧ ∀ s ∈ kept.getLast?, s ≠ [] := by
  refine ⟨_, rfl, ?_⟩
  intro s hs he
  rw [List.getLast?_reverse] at hs
  have hkept := List.head?_dropWhile_not (fun piece => piece = [] || piece = ['.']) rest.reverse
  rw [hs] at hkept
  simp [he] at hkept

namespace IsClean

variable {p q : Path}

theorem dot_notMem_pieces (h : p.IsClean) : ['.'] ∉ p.pieces := by
  intro hm
  have : "." ∈ p.names :=
    List.mem_map.2 ⟨['.'], List.mem_filter.2 ⟨hm, by decide⟩, rfl⟩
  exact (h.clean _ this).1 rfl

/-- The path above is clean as well, and has all names but the last. -/
theorem parent?_cases (h : p.IsClean) : (p.names = [] ∧ p.parent? = none) ∨
    ∃ q, p.parent? = some q ∧ p.names ≠ [] ∧ q.IsClean ∧ q.names = p.names.dropLast := by
  obtain ⟨ps, hps⟩ := pieces_of_isAbsolute h.isAbsolute
  have hnames : p.names = ((trimPieces p.pieces).filter (· ≠ [])).map String.ofList := by
    rw [filter_trimPieces h.dot_notMem_pieces]
    rfl
  have hpre := prefix_of_trimPieces p.pieces
  have hparent := fun q => isAbsolute_parent? (q := q) h.isAbsolute
  unfold parent? at hparent ⊢
  rw [hps] at hnames hpre hparent ⊢
  -- The pieces behind the root, without those that are trimmed off.
  obtain ⟨kept, hkept, hlast⟩ := trimPieces_cons [] ps
  rw [hkept] at hnames hpre hparent ⊢
  rcases List.eq_nil_or_concat kept with rfl | ⟨init, last, rfl⟩
  · exact .inl ⟨hnames, rfl⟩
  right
  rw [List.concat_eq_append] at hnames hpre hparent hlast ⊢
  have hne : last ≠ [] := hlast last (by simp)
  obtain ⟨c, cs, hcons⟩ : ∃ c cs, init ++ [last] = c :: cs :=
    List.exists_cons_of_ne_nil (by simp)
  have hdrop : (c :: cs).dropLast = init := by rw [← hcons, List.dropLast_concat]
  have hin : [] :: init <+: [] :: ps :=
    List.IsPrefix.trans (List.cons_prefix_cons.2 ⟨rfl, List.prefix_append _ _⟩) hpre
  have hsep : ∀ s ∈ trimPieces ([] :: init), '/' ∉ s := by
    intro s hs
    have hm : s ∈ p.pieces := hps ▸ ((prefix_of_trimPieces _).trans hin).subset hs
    exact not_mem_of_mem_stretches hm
  have hdot : ['.'] ∉ [] :: init := by
    intro hm
    exact h.dot_notMem_pieces (hps ▸ hin.subset hm)
  simp only [hcons] at hparent ⊢
  rw [hdrop] at hparent ⊢
  have hq : (ofPieces p.isAbsolute (trimPieces ([] :: init))).names = p.names.dropLast := by
    rw [names_ofPieces (by simp [trimPieces]) hsep, filter_trimPieces hdot, hnames,
      ← List.map_dropLast]
    congr 1
    simp [List.filter_append, hne]
  refine ⟨_, rfl, ?_, ⟨hparent _ rfl, ?_⟩, hq⟩
  · rw [hnames]
    simp [List.filter_append, hne]
  · rw [hq]
    exact fun name hm => h.clean name (List.dropLast_subset _ hm)

/-- There are not more names than characters: each comes behind a separator. -/
theorem length_names_le (h : p.IsClean) : p.names.length ≤ p.text.length := by
  have habs := h.isAbsolute
  simp only [Path.isAbsolute, beq_iff_eq] at habs
  obtain ⟨cs, hc⟩ := List.head?_eq_some_iff.1 habs
  have hpieces : p.pieces = [] :: stretches '/' cs := by
    rw [pieces, hc, stretches, if_pos rfl]
  have hlen : p.text.length = cs.length + 1 := by
    rw [← String.length_toList, hc, List.length_cons]
  calc p.names.length
      = ((stretches '/' cs).filter (· ≠ [])).length := by
        rw [names, hpieces, List.length_map, List.filter_cons]
        rfl
    _ ≤ (stretches '/' cs).length := List.length_filter_le _ _
    _ ≤ cs.length + 1 := length_stretches_le '/' cs
    _ = p.text.length := hlen.symm

end IsClean

/-! ## Canonical paths -/

/-- The path of a place, as text: absolute, with single separators, without `.` and `..`. -/
structure IsCanonical (p : Path) : Prop where
  eq_ofPlace : p = ofPlace p.names
  clean : Clean p.names

theorem IsCanonical.isAbsolute {p : Path} (h : p.IsCanonical) : p.isAbsolute = true := by
  rw [h.eq_ofPlace]; exact isAbsolute_ofPlace _

theorem IsCanonical.isClean {p : Path} (h : p.IsCanonical) : p.IsClean := ⟨h.isAbsolute, h.clean⟩

theorem IsCanonical.fold_names {p : Path} (h : p.IsCanonical) : fold p.names = p.names :=
  fold_of_clean h.clean

theorem IsCanonical.normalize_eq {p : Path} (h : p.IsCanonical) : p.normalize = p := by
  rw [normalize_eq_ofPlace h.isAbsolute, h.fold_names, ← h.eq_ofPlace]

theorem isCanonical_normalize {p : Path} (h : p.isAbsolute = true) : p.normalize.IsCanonical := by
  refine ⟨?_, ?_⟩
  · rw [names_normalize]; exact normalize_eq_ofPlace h
  · rw [names_normalize]; exact fold_clean _

theorem IsCanonical.clean_components {p : Path} (h : p.IsCanonical) : Clean p.components := by
  rw [components_of_isAbsolute h.isAbsolute]
  intro name hn
  rcases List.mem_cons.1 hn with rfl | hn
  · exact ⟨by decide, by decide⟩
  · exact h.clean name hn

theorem IsCanonical.parent? {p : Path} (h : p.IsCanonical) :
    p.parent? = if p.names = [] then none else some (ofPlace p.names.dropLast) := by
  conv => lhs; rw [h.eq_ofPlace]
  exact parent?_ofPlace (fun _ => isStretch_of_mem_names) h.clean

end Path

end Datapack
