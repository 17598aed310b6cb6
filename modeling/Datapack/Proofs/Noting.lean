import Datapack.Proofs.Approaching
import Datapack.Proofs.Emptying

/-
  Datapack.Proofs.Noting — what the parts of a removal note as still there.

  What one part of a removal does in a directory is told by a limit for each place in it:
  how often the part may note the place, and where that is zero the place stays as it is
  (`Reports`). Two parts add up if their limits are together within what a place is allowed
  at all (`Reports.trans`). That is one note, or two if its path is too long, as a directory
  with such a path can neither be listed nor removed.

  An attempt uses up one note of its own place (`reports_attempt`). What comes to a directory
  and all that lies in it may use what is allowed below the directory (`minds_sweep`), by
  induction on the fuel: of the entries each uses what is allowed at and below it, and the
  one kept back has a note left for the end (`spends_visit`, `spends_foldl`). Entries have
  different names, so together they are within what is allowed (`total_le_inside`).

  All of this needs the path of an entry to lead to the entry, and so an `Approach` to the
  directory, which no part of the removal touches (`Reports.approach`).
-/

namespace Datapack

def Path.Overlong (p : Path) (rel : Place) : Prop :=
  maxPathBytes < (p.down rel).text.utf8ByteSize

instance (p : Path) (rel : Place) : Decidable (p.Overlong rel) :=
  inferInstanceAs (Decidable (_ < _))

namespace Removal

open Disk

variable {p : Path} {top rel : Place} {o : FileTree} {limit limit' : Place → Nat} {r s u : Removal}

/-! ## What is allowed -/

/-- How often a removal may note what lies at `rel`: once, or if the path is too long when
it is listed and when it is removed. -/
def allowed (p : Path) (rel : Place) : Nat := if p.Overlong rel then 2 else 1

def once (rel x : Place) : Nat := if x = rel then 1 else 0

def under (p : Path) (rel x : Place) : Nat := if rel <+: x then allowed p x else 0

/-- What is left of that for those who list what is in the directory there. -/
def inside (p : Path) (rel x : Place) : Nat :=
  if rel <+: x then allowed p x - once rel x else 0

def total (p : Path) (rel : Place) : List (String × Node) → Place → Nat
  | [], _ => 0
  | e :: es, x => under p (rel ++ [e.1]) x + total p rel es x

theorem eq_zero_of_add_le {a b : Nat} (h : a + b ≤ allowed p rel) :
    a = 0 ∨ b = 0 ∨ p.Overlong rel := by
  unfold allowed at h
  split at h
  · exact .inr (.inr ‹_›)
  · omega

theorem once_le_allowed (p : Path) (rel x : Place) : once rel x ≤ allowed p x := by
  unfold once allowed
  split <;> split <;> omega

theorem under_le_allowed (p : Path) (rel x : Place) : under p rel x ≤ allowed p x := by
  unfold under
  split <;> omega

theorem inside_add_once (p : Path) (rel x : Place) :
    inside p rel x + once rel x = under p rel x := by
  have := once_le_allowed p rel x
  unfold inside under
  split
  · omega
  · rename_i hpre
    have hne : x ≠ rel := fun he => hpre (he ▸ List.prefix_refl _)
    simp [once, hne]

theorem once_le_under (p : Path) (rel x : Place) : once rel x ≤ under p rel x := by
  rw [← inside_add_once]
  exact Nat.le_add_left _ _

theorem inside_le_allowed (p : Path) (rel x : Place) : inside p rel x ≤ allowed p x := by
  refine Nat.le_trans ?_ (under_le_allowed p rel x)
  rw [← inside_add_once]
  exact Nat.le_add_right _ _

/-- What may be noted for the last time has been let alone, but for what cannot be removed. -/
theorem eq_zero_of_add_once_le {a : Nat} (h : a + once rel rel ≤ allowed p rel) :
    a = 0 ∨ p.Overlong rel :=
  (eq_zero_of_add_le h).imp_right fun h => h.resolve_left (by simp [once])

section

variable {es : List (String × Node)} {e : String × Node}

theorem total_eq_zero {x : Place} (h : ∀ e ∈ es, ¬rel ++ [e.1] <+: x) : total p rel es x = 0 := by
  induction es with
  | nil => rfl
  | cons e es ih =>
    rw [total, ih fun k hk => h k (List.mem_cons_of_mem _ hk)]
    simp [under, h e List.mem_cons_self]

theorem allowed_le_total (p : Path) (rel : Place) (he : e ∈ es) :
    allowed p (rel ++ [e.1]) ≤ total p rel es (rel ++ [e.1]) := by
  induction es with
  | nil => cases he
  | cons first es ih =>
    rw [total]
    rcases List.mem_cons.1 he with rfl | he
    · simp [under]
    · exact Nat.le_trans (ih he) (Nat.le_add_left _ _)

/-- Entries of different names have nothing below them in common. -/
theorem total_le_inside (p : Path) (rel : Place) (hnodup : (es.map Prod.fst).Nodup) (x : Place) :
    total p rel es x ≤ inside p rel x := by
  induction es with
  | nil => simp [total]
  | cons e es ih =>
    obtain ⟨hfresh, hrest⟩ := List.nodup_cons.1 hnodup
    rw [total]
    by_cases hpre : rel ++ [e.1] <+: x
    · have hothers : total p rel es x = 0 := by
        refine total_eq_zero fun other hm hpre' => hfresh ?_
        rw [eq_of_under hpre hpre']
        exact List.mem_map.2 ⟨other, hm, rfl⟩
      have hrel : rel <+: x := (List.prefix_append rel [e.1]).trans hpre
      have hne : x ≠ rel := by
        rintro rfl
        have hlen := hpre.length_le
        rw [List.length_append, List.length_singleton] at hlen
        omega
      rw [hothers]
      simp [under, inside, hpre, hrel, once, hne]
    · have := ih hrest
      simpa [under, hpre] using this

end

/-! ## What one part of a removal does -/

/-- How often the path of these names has been noted as one that is still there. -/
def noted (r : Removal) (names : List String) : Nat := r.failures.countP (·.1.names == names)

/-- From `r` to `s` nothing has come to be there. What lies at `rel` in the directory `top`
has been noted at most as often as the limit says. It is still there if it was noted, and
it has not been touched where the limit is zero, or its path too long; nor has anything
outside of the directory. -/
structure Reports (p : Path) (top : Place) (limit : Place → Nat) (r s : Removal) : Prop where
  within : s.disk.tree.Within r.disk.tree
  kept : ∀ q, (∀ rel, q = top ++ rel → limit rel = 0 ∨ p.Overlong rel) →
    s.disk.tree.get? q = r.disk.tree.get? q
  failed : ∀ f ∈ s.failures, f ∈ r.failures ∨
    ∃ rel, f.1 = p.down rel ∧ limit rel ≠ 0 ∧ s.disk.tree.get? (top ++ rel) ≠ none
  counted : ∀ rel, s.noted (p.names ++ rel) ≤ r.noted (p.names ++ rel) + limit rel

namespace Reports

theorem refl (p : Path) (top : Place) (r : Removal) : Reports p top (fun _ => 0) r r :=
  ⟨FileTree.Within.refl _, fun _ _ => rfl, fun _ hf => .inl hf, fun _ => Nat.le_refl _⟩

theorem mono (h : Reports p top limit r s) (hle : ∀ rel, limit rel ≤ limit' rel) :
    Reports p top limit' r s := by
  refine ⟨h.within, fun q hq => h.kept q fun rel he => ?_, fun f hf => ?_, fun rel => ?_⟩
  · have := hle rel
    exact (hq rel he).imp_left fun hzero => by omega
  · refine (h.failed f hf).imp_right ?_
    rintro ⟨rel, hpath, hne, hthere⟩
    have := hle rel
    exact ⟨rel, hpath, by omega, hthere⟩
  · have := h.counted rel
    have := hle rel
    omega

/-- What the limit lets alone is as it was. -/
theorem get?_eq (h : Reports p top limit r s) (hrel : limit rel = 0 ∨ p.Overlong rel) :
    s.disk.tree.get? (top ++ rel) = r.disk.tree.get? (top ++ rel) := by
  refine h.kept _ fun other he => ?_
  rwa [← List.append_cancel_left he]

/-- Two parts add up, unless one may take what the other has noted. -/
theorem trans (h : Reports p top limit r s) (h' : Reports p top limit' s u)
    (hle : ∀ rel, limit rel + limit' rel ≤ allowed p rel) :
    Reports p top (fun rel => limit rel + limit' rel) r u := by
  refine ⟨h'.within.trans h.within, fun q hq => ?_, fun f hf => ?_, fun rel => ?_⟩
  · rw [h'.kept q fun rel he => (hq rel he).imp_left fun hzero => by omega,
      h.kept q fun rel he => (hq rel he).imp_left fun hzero => by omega]
  · rcases h'.failed f hf with hf | ⟨rel, hpath, hne, hthere⟩
    · rcases h.failed f hf with hf | ⟨rel, hpath, hne, hthere⟩
      · exact .inl hf
      · -- What the first part has noted the second leaves alone, or cannot remove.
        have hother := (eq_zero_of_add_le (hle rel)).resolve_left hne
        exact .inr ⟨rel, hpath, by omega, by rwa [h'.get?_eq hother]⟩
    · exact .inr ⟨rel, hpath, by omega, hthere⟩
  · have := h.counted rel
    have := h'.counted rel
    omega

/-- The way to the directory stays, if the directory does. -/
theorem approach (h : Reports p top limit r s) (ha : Approach p top o) (ho : o.Within r.disk.tree)
    (htop : s.disk.tree.get? top ≠ none) : o.Within s.disk.tree := by
  intro q node hq
  by_cases he : q = top
  · subst he
    obtain ⟨node', hnode'⟩ := Option.ne_none_iff_exists'.1 htop
    rw [hnode', ← h.within q node' hnode', ho q node hq]
  · rw [h.kept q ?_, ho q node hq]
    rintro rel rfl
    have hrel : rel ≠ [] := by
      rintro rfl
      exact he (List.append_nil top)
    rw [ha.bare rel hrel] at hq
    cases hq

theorem approach_of_zero (h : Reports p top limit r s) (ha : Approach p top o)
    (ho : o.Within r.disk.tree) (hzero : limit [] = 0) : o.Within s.disk.tree := by
  refine h.approach ha ho ?_
  have hsame : s.disk.tree.get? (top ++ []) = r.disk.tree.get? (top ++ []) := h.get?_eq (.inl hzero)
  rw [List.append_nil] at hsame
  rw [hsame, ho top _ ha.dir]
  simp

end Reports

/-! ## One attempt -/

theorem noted_note {q : Path} {reason : String} (names : List String) :
    (r.note (.failed q reason)).noted names = r.noted names + if q.names = names then 1 else 0 := by
  simp [noted, failures_note, List.countP_append, List.countP_singleton]

/-- To note what is there is within the limits. -/
theorem reports_note (hget : r.disk.tree.get? (top ++ rel) ≠ none) (reason : String) :
    Reports p top (once rel) r (r.note (.failed (p.down rel) reason)) := by
  have hentries := FileTree.isEntryName_of_there hget
  refine ⟨FileTree.Within.refl _, fun _ _ => rfl, fun f hf => ?_, fun x => ?_⟩
  · rw [failures_note, List.mem_append, List.mem_singleton] at hf
    refine hf.imp_right ?_
    rintro rfl
    exact ⟨rel, rfl, by simp [once], hget⟩
  · rw [noted_note, Path.names_down p hentries]
    simp [once, eq_comm]

/-- An attempt takes the entry that its path leads to, or notes it. -/
theorem reports_attempt (hp : p.IsCanonical) (ha : Approach p top o) (ho : o.Within r.disk.tree)
    (hkeep : rel = [] → o.Leads .keep maxLinks [] p.names (.node top))
    (hget : r.disk.tree.get? (top ++ rel) ≠ none) (isDir : Bool) :
    Reports p top (once rel) r (r.attempt ⟨p.down rel, isDir⟩) := by
  have hwalk := ha.walk_keep ho hkeep hget
  have hentries := FileTree.isEntryName_of_there hget
  have hq := (hp.down hentries).isAbsolute
  rcases r.attempt_cases ⟨p.down rel, isDir⟩ with ⟨reason, hnoted⟩ | ⟨hsame, hremoves⟩
  · rw [hnoted]
    exact reports_note hget reason
  · obtain ⟨place, hl, hloses⟩ := hremoves.loses hq
    obtain ⟨_, htext, hw⟩ := land_ok hq hl
    rw [Path.names_down p hentries, hwalk] at hw
    cases hw
    refine ⟨hloses.within, fun q hq => ?_, fun f hf => .inl (hsame ▸ hf), fun x => ?_⟩
    · rw [hloses q, if_neg]
      rintro rfl
      rcases hq rel rfl with hzero | hlong
      · simp [once] at hzero
      · exact absurd htext (Nat.not_le.2 hlong)
    · unfold noted
      rw [hsame]
      omega

/-- An entry that has a note left may be attempted after what went before. -/
theorem Reports.attempt (hp : p.IsCanonical) (ha : Approach p top o) (ho : o.Within r.disk.tree)
    (hkeep : rel = [] → o.Leads .keep maxLinks [] p.names (.node top))
    (hget : r.disk.tree.get? (top ++ rel) ≠ none) (h : Reports p top limit r s)
    (hle : ∀ x, limit x + once rel x ≤ limit' x) (hallowed : ∀ x, limit' x ≤ allowed p x)
    (isDir : Bool) : Reports p top limit' r (s.attempt ⟨p.down rel, isDir⟩) := by
  have hthere : s.disk.tree.get? (top ++ rel) ≠ none := by
    rwa [h.get?_eq (eq_zero_of_add_once_le (Nat.le_trans (hle rel) (hallowed rel)))]
  have hstill : o.Within s.disk.tree :=
    h.approach ha ho fun hnone => hthere (FileTree.get?_append_of_none hnone rel)
  exact (h.trans (reports_attempt hp ha hstill hkeep hthere isDir)
    fun x => Nat.le_trans (hle x) (hallowed x)).mono hle

/-! ## A list of entries -/

def Minds (p : Path) (top : Place) (o : FileTree)
    (inner : Bool → Path → Removal → Removal) : Prop :=
  ∀ late rel r, o.Within r.disk.tree → r.disk.tree.get? (top ++ rel) = some .dir →
    Reports p top (inside p rel) r (inner late (p.down rel) r)

/-- How it stands between two entries of a list: the removal, and the entry kept back. -/
abbrev Standing := Removal × Option (String × Node)

def Standing.listed (q : Path) (state : Standing) : Removal × Option Listed :=
  (state.1, state.2.map (Removal.listed q))

/-- The note that is left for an entry that was kept back. -/
def Standing.owed (rel : Place) (state : Standing) (x : Place) : Nat :=
  (state.2.map fun e => once (rel ++ [e.1]) x).getD 0

theorem Standing.owed_nil (rel : Place) (state : Standing) : state.owed rel [] = 0 := by
  unfold owed
  cases state.2 with
  | none => rfl
  | some e => simp [once]

/-- What is done for entries of the directory `rel` is within the limit, if what is left to
do for the entry kept back is taken with it. -/
def Spends (p : Path) (top rel : Place) (limit : Place → Nat) (state state' : Standing) : Prop :=
  ∃ spent, Reports p top spent state.1 state'.1 ∧
    ∀ x, spent x + state'.owed rel x ≤ state.owed rel x + limit x

namespace Spends

variable {state state' state'' : Standing}

/-- Who leaves the entry kept back as it is may use up the whole limit. -/
theorem of_same {kept : Option (String × Node)} (h : Reports p top limit' r s)
    (hle : ∀ x, limit' x ≤ limit x) : Spends p top rel limit (r, kept) (s, kept) :=
  ⟨limit', h, fun x => by
    rw [Nat.add_comm]
    exact Nat.add_le_add_left (hle x) _⟩

theorem trans (h : Spends p top rel limit state state')
    (h' : Spends p top rel limit' state' state'')
    (hle : ∀ x, state.owed rel x + (limit x + limit' x) ≤ allowed p x) :
    Spends p top rel (fun x => limit x + limit' x) state state'' := by
  obtain ⟨spent, hreports, hspent⟩ := h
  obtain ⟨spent', hreports', hspent'⟩ := h'
  refine ⟨_, hreports.trans hreports' fun x => ?_, fun x => ?_⟩
  · have := hle x
    have := hspent x
    have := hspent' x
    omega
  · have := hspent x
    have := hspent' x
    simp only
    omega

theorem get?_eq (h : Spends p top rel limit state state') {x : Place}
    (hzero : state.owed rel x + limit x = 0) :
    state'.1.disk.tree.get? (top ++ x) = state.1.disk.tree.get? (top ++ x) := by
  obtain ⟨spent, hreports, hspent⟩ := h
  refine hreports.get?_eq (.inl ?_)
  have := hspent x
  omega

theorem approach (h : Spends p top rel limit state state') (ha : Approach p top o)
    (ho : o.Within state.1.disk.tree) (hzero : limit [] = 0) : o.Within state'.1.disk.tree := by
  obtain ⟨spent, hreports, hspent⟩ := h
  refine hreports.approach_of_zero ha ho ?_
  have := hspent []
  rw [Standing.owed_nil, Standing.owed_nil] at this
  omega

end Spends

section

variable {inner : Option (Bool → Path → Removal → Removal)} (hp : p.IsCanonical)
  (ha : Approach p top o) (hinner : ∀ f ∈ inner, Minds p top o f)

section

variable (hrel : ∀ name ∈ rel, isEntryName name = true)

include hp ha hinner hrel

/-- What comes to an entry is within what is allowed at and below it. -/
theorem spends_visit (late : Bool) {state : Standing} (ho : o.Within state.1.disk.tree)
    {e : String × Node} (hget : state.1.disk.tree.get? (top ++ rel ++ [e.1]) = some e.2) :
    ∃ state' : Standing,
      visit late inner (state.listed (p.down rel)) (listed (p.down rel) e) =
        state'.listed (p.down rel) ∧
      Spends p top rel (under p (rel ++ [e.1])) state state' ∧
      (state'.2 = state.2 ∨ state'.2 = some e) := by
  obtain ⟨r, kept⟩ := state
  obtain ⟨name, node⟩ := e
  simp only at ho hget
  rw [List.append_assoc] at hget
  have hname : isEntryName name = true := FileTree.isEntryName_of_below hget name (by simp)
  have hpath : listed (p.down rel) (name, node) = ⟨p.down (rel ++ [name]), node == .dir⟩ := by
    rw [listed, hp.child_down hrel hname]
  have hkeep : rel ++ [name] = [] → o.Leads .keep maxLinks [] p.names (.node top) :=
    fun he => absurd he (by simp)
  have hthere : r.disk.tree.get? (top ++ (rel ++ [name])) ≠ none := by
    rw [hget]
    simp
  rw [hpath]
  by_cases hnode : node = .dir
  · subst hnode
    cases inner with
    | none => exact ⟨(r, kept), rfl, .of_same (.refl p top r) (fun x => Nat.zero_le _), .inl rfl⟩
    | some f =>
      have hf := hinner f rfl
      by_cases hlate : late = true ∧ kept = none
      · -- The entry is kept back, and may still be noted once.
        obtain ⟨rfl, rfl⟩ := hlate
        refine ⟨(f true (p.down (rel ++ [name])) r, some (name, .dir)), ?_,
          ⟨_, hf true _ r ho hget, fun x => ?_⟩, .inr rfl⟩
        · simp [visit, Standing.listed, hpath]
        · simpa [Standing.owed] using Nat.le_of_eq (inside_add_once p (rel ++ [name]) x)
      · refine ⟨((f false (p.down (rel ++ [name])) r).attempt ⟨p.down (rel ++ [name]), true⟩, kept),
          ?_, .of_same ((hf false _ r ho hget).attempt hp ha ho hkeep hthere
            (fun x => Nat.le_of_eq (inside_add_once p _ x)) (under_le_allowed p _) true)
            (fun x => Nat.le_refl _), .inl rfl⟩
        cases kept <;> cases late <;> simp_all [visit, Standing.listed]
  · have hother : (node == .dir) = false := by simpa using hnode
    have hattempt := reports_attempt hp ha ho hkeep hthere false
    exact ⟨(r.attempt ⟨p.down (rel ++ [name]), false⟩, kept),
      by simp [visit, Standing.listed, hother],
      .of_same hattempt (once_le_under p (rel ++ [name])), .inl rfl⟩

/-- Entry by entry, all are within what is allowed at and below them. -/
theorem spends_foldl (late : Bool) {es : List (String × Node)} (state : Standing)
    (ho : o.Within state.1.disk.tree)
    (hget : ∀ e ∈ es, state.1.disk.tree.get? (top ++ rel ++ [e.1]) = some e.2)
    (hle : ∀ x, state.owed rel x + total p rel es x ≤ allowed p x) :
    ∃ state' : Standing, (es.map (listed (p.down rel))).foldl (visit late inner)
        (state.listed (p.down rel)) = state'.listed (p.down rel) ∧
      Spends p top rel (total p rel es) state state' ∧
      (state'.2 = state.2 ∨ ∃ e ∈ es, state'.2 = some e) := by
  induction es generalizing state with
  | nil => exact ⟨state, rfl, ⟨_, .refl p top _, fun x => by simp⟩, .inl rfl⟩
  | cons e es ih =>
    simp only [total] at hle
    obtain ⟨mid, hvisit, hspends, hkept⟩ :=
      spends_visit hp ha hinner hrel late ho (hget e List.mem_cons_self)
    -- What the first entry may use up leaves the others, and the way to them, as they are.
    have hlater : ∀ x ∈ es, mid.1.disk.tree.get? (top ++ rel ++ [x.1]) = some x.2 := by
      intro x hx
      rw [← hget x (List.mem_cons_of_mem _ hx), List.append_assoc]
      refine hspends.get?_eq ?_
      have := hle (rel ++ [x.1])
      have := allowed_le_total p rel hx
      omega
    have hstill : o.Within mid.1.disk.tree := hspends.approach ha ho (by simp [under])
    obtain ⟨last, hfold, hspends', hkept'⟩ := ih mid hstill hlater fun x => by
      obtain ⟨spent, _, hspent⟩ := hspends
      have := hle x
      have := hspent x
      omega
    refine ⟨last, ?_, hspends.trans hspends' hle, ?_⟩
    · rw [List.map_cons, List.foldl_cons, hvisit, hfold]
    · rcases hkept' with he | ⟨x, hx, he⟩
      · rcases hkept with he' | he'
        · exact .inl (he.trans he')
        · exact .inr ⟨e, List.mem_cons_self, he.trans he'⟩
      · exact .inr ⟨x, List.mem_cons_of_mem _ hx, he⟩

/-- To come to all entries of a directory, and then to the one kept back, is within what is
allowed below the directory. -/
theorem reports_visitAll (late flush : Bool) (ho : o.Within r.disk.tree)
    {es : List (String × Node)} (hnodup : (es.map Prod.fst).Nodup)
    (hget : ∀ e ∈ es, r.disk.tree.get? (top ++ rel ++ [e.1]) = some e.2) :
    Reports p top (inside p rel) r
      (visitAll late flush inner (p.down rel) (.ok (es.map (listed (p.down rel)))) r) := by
  have hinside := total_le_inside p rel hnodup
  have hstart : ∀ x, Standing.owed rel (r, none) x = 0 := fun _ => rfl
  obtain ⟨⟨s, kept⟩, hfold, ⟨spent, hreports, hspent⟩, hkept⟩ :=
    spends_foldl hp ha hinner hrel late (r, none) ho hget fun x => by
      rw [hstart, Nat.zero_add]
      exact Nat.le_trans (hinside x) (inside_le_allowed p rel x)
  have hwithin : ∀ x, spent x + Standing.owed rel (s, kept) x ≤ inside p rel x := fun x => by
    have := hspent x
    have := hinside x
    have := hstart x
    omega
  have hswept : Reports p top (inside p rel) r s :=
    hreports.mono fun x => Nat.le_trans (Nat.le_add_right _ _) (hwithin x)
  unfold visitAll
  simp only
  rw [show (es.map (listed (p.down rel))).foldl (visit late inner) (r, none) =
    (s, kept.map (listed (p.down rel))) from hfold]
  cases kept with
  | none => exact hswept
  | some e =>
    simp only [Option.map_some]
    split
    · obtain ⟨e', he, hkept⟩ := hkept.resolve_left (by simp)
      cases hkept
      have hname : isEntryName e.1 = true :=
        FileTree.isEntryName_of_below (hget e he) e.1 (by simp)
      rw [listed, hp.child_down hrel hname]
      refine hreports.attempt hp ha ho (fun he => absurd he (by simp)) ?_ hwithin
        (inside_le_allowed p rel) _
      rw [← List.append_assoc, hget e he]
      simp
    · exact hswept

end

variable (hnul : p.hasNul = false)

include hp ha hnul

include hinner in
/-- A directory with a path that the disk takes is listed in full, any other is noted. -/
theorem minds_visitAll (flush : Bool) :
    Minds p top o fun late q r => visitAll late flush inner q (listing r.disk q) r := by
  intro late rel r ho hdir
  have hentries := FileTree.isEntryName_of_below hdir
  have hq := hp.down hentries
  by_cases hlong : p.Overlong rel
  · have hland : r.disk.land .follow (p.down rel) (p.down rel).steps = .error .nameTooLong := by
      rw [land_of_isAbsolute hq.isAbsolute, Path.hasNul_down hnul hentries, if_neg (by simp),
        if_pos (show maxPathBytes < _ from hlong)]
    have hlist : listing r.disk (p.down rel) = .error .nameTooLong := by
      unfold listing Disk.list
      rw [hland]
    simp only [hlist, visitAll]
    refine (reports_note (by rw [hdir]; simp) _).mono fun x => ?_
    unfold inside once allowed
    by_cases hx : x = rel
    · subst hx
      simp [hlong]
    · simp [hx]
  · have hleads := FileTree.leads_of_walk (ha.walk_dir ho hdir)
    have hland : r.disk.land .follow (p.down rel) (p.down rel).steps =
        .ok (.node (top ++ rel)) := by
      rw [steps_of_isCanonical hq, land_iff hq.isAbsolute, Path.names_down p hentries]
      exact ⟨Path.hasNul_down hnul hentries, Nat.le_of_not_lt hlong, hleads⟩
    obtain ⟨es, hl, hnodup, hes⟩ := listing_of_land hland hdir
    simp only [hl]
    exact reports_visitAll hp ha hinner hentries late flush ho hnodup fun e he => (hes e).1 he

/-- So with all that lies in it, however deep. -/
theorem minds_sweep (fuel : Nat) (flush : Bool) :
    Minds p top o fun late q r => sweep fuel late flush q (listing r.disk q) r := by
  simp only [sweep_eq]
  induction fuel generalizing flush with
  | zero => exact minds_visitAll hp ha (fun f hf => by cases hf) hnul flush
  | succ fuel ih =>
    refine minds_visitAll hp ha (fun f hf => ?_) hnul flush
    cases hf
    simp only [sweep_eq]
    exact ih true

end

end Removal

end Datapack
