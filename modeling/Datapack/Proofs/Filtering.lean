import Datapack.CommandLine.Program

/-
  Datapack.Proofs.Filtering — what the filter for log lines lets pass.

  The filter is what the environment asks for, or the usual one, and behind that a rule for
  what scripts say. Rules stand between commas, so that rule is the last one read, and a text
  that is malformed without it is so with it (`parse?_concat`). An event is judged by the
  best of the rules that come before the last, unless the last is at least as specific
  (`judge?_concat`).

  For what a script says the added rule is at least as specific as any other, but for rules
  with the same target that name fields (`atLeast_scriptRule_iff`). So what scripts say is
  printed just if the environment writes a filter, and no such rule keeps it back
  (`passes_spoken_iff`). With nothing in the environment that is so (`heard_of_unset`).

  The usual filters name no fields, so they go by the level and the part of an event alone
  (`passes_usual`).
-/

namespace Datapack

namespace Log

def spoken (line : Nat) (message : String) : Event :=
  ⟨.info, .script, message, [("line", toString line)]⟩

def scriptRule : Rule := ⟨some .info, some Part.script.target, none, []⟩

namespace Filter

variable {f : Filter} {rules : List Rule} {r : Rule} {e : Event}

/-! ## Reading -/

theorem pieces_append (a b : String) : pieces (a ++ "," ++ b) = pieces a ++ pieces b := by
  have htext : (a ++ "," ++ b).toList = a.toList ++ ',' :: b.toList := by simp
  unfold pieces
  rw [htext, Text.stretches_append, List.map_append, List.filter_append]

/-- One more rule behind a filter. -/
theorem parse?_concat {text : String} (hpieces : pieces text = [text])
    (hrule : Rule.parse? text = some r) (base : String) :
    parse? (base ++ "," ++ text) = (parse? base).map fun f => ⟨f.rules ++ [r]⟩ := by
  unfold parse?
  rw [pieces_append, hpieces, List.mapM_append]
  cases (pieces base).mapM Rule.parse? with
  | none => rfl
  | some rules => simp [hrule]

/-! ## Judging -/

/-- The rule that judges is one of the filter, and applies. -/
theorem of_judge? (h : f.judge? e = some r) : r ∈ f.rules ∧ r.applies e = true := by
  have best : ∀ (rules : List Rule) (start : Option Rule), rules.foldl better start = some r →
      r ∈ rules ∨ start = some r := by
    intro rules
    induction rules with
    | nil => exact fun start h => .inr h
    | cons first rules ih =>
      intro start h
      rcases ih _ h with hr | hr
      · exact .inl (List.mem_cons_of_mem _ hr)
      · unfold better at hr
        split at hr
        · cases hr
          exact .inl List.mem_cons_self
        · split at hr
          · cases hr
            exact .inl List.mem_cons_self
          · exact .inr hr
  unfold judge? at h
  have hr := (best _ _ h).resolve_right nofun
  obtain ⟨hmem, happlies⟩ := List.mem_filter.1 hr
  rw [Bool.and_eq_true] at happlies
  exact ⟨hmem, happlies.2⟩

theorem judge?_concat (hjudges : r.judgesEvents = true) (happlies : r.applies e = true)
    (rules : List Rule) : judge? ⟨rules ++ [r]⟩ e = better (judge? ⟨rules⟩ e) r := by
  unfold judge?
  rw [List.filter_append, List.foldl_append]
  simp [hjudges, happlies]

/-! ## What scripts say -/

theorem judge?_spoken (f : Filter) (line line' : Nat) (message message' : String) :
    f.judge? (spoken line message) = f.judge? (spoken line' message') := rfl

/-- What scripts say is judged by a rule for it that names fields, and kept back. -/
def Overrules (f : Filter) : Prop :=
  ∃ r, (∀ line message, f.judge? (spoken line message) = some r) ∧
    r.target = some Part.script.target ∧ r.fields ≠ [] ∧ r.threshold.passes .info = false

/-- A target that a name begins with is that name, or shorter. -/
theorem target_cases {target name : String} (h : target.toList <+: name.toList) :
    target = name ∨ target.utf8ByteSize < name.utf8ByteSize := by
  obtain ⟨rest, hrest⟩ := h
  have hname : name = target ++ String.ofList rest := by
    rw [← String.toList_inj, String.toList_append, String.toList_ofList, hrest]
  by_cases hempty : String.ofList rest = ""
  · left
    rw [hname, hempty, String.append_empty]
  · right
    have hpositive := mt String.utf8ByteSize_eq_zero_iff.1 hempty
    rw [hname, String.utf8ByteSize_append]
    omega

/-- The rule for what scripts say gives way only to those for the same target that name fields. -/
theorem atLeast_scriptRule_iff {line : Nat} {message : String}
    (h : r.applies (spoken line message) = true) :
    scriptRule.atLeast r = true ↔ ¬(r.target = some Part.script.target ∧ r.fields ≠ []) := by
  have hlonger : ∀ n, n < 1 + Part.script.target.utf8ByteSize →
      compare scriptRule.specificity.1 [n, r.fields.length] = .gt := by
    intro n hn
    have hgt : compare (1 + Part.script.target.utf8ByteSize) n = .gt := Nat.compare_eq_gt.2 hn
    show compare [1 + Part.script.target.utf8ByteSize, 0] [n, r.fields.length] = .gt
    rw [List.compare_cons_cons, hgt]
    rfl
  unfold Rule.atLeast
  cases htarget : r.target with
  | none =>
    have hspecificity : r.specificity.1 = [0, r.fields.length] := by simp [Rule.specificity, htarget]
    rw [hspecificity, hlonger 0 (by decide)]
    simp
  | some target =>
    -- A rule that applies has a target that the name of scripts begins with.
    have hspecificity : r.specificity.1 = [1 + target.utf8ByteSize, r.fields.length] := by
      simp [Rule.specificity, htarget]
    have hprefix : target.toList <+: Part.script.target.toList := by
      unfold Rule.applies at h
      rw [htarget, Bool.and_eq_true] at h
      exact List.isPrefixOf_iff_prefix.1 h.1
    rcases target_cases hprefix with rfl | hshorter
    · have hsame : scriptRule.specificity.1 = [1 + Part.script.target.utf8ByteSize, 0] := rfl
      rw [hspecificity, hsame, List.compare_cons_cons, List.compare_cons_cons,
        Nat.compare_eq_eq.2 rfl]
      cases hfields : r.fields with
      | nil =>
        have hrest : r.specificity.2 = scriptRule.specificity.2 := by
          simp [Rule.specificity, htarget, hfields, scriptRule]
        rw [hrest]
        decide +kernel
      | cons field fields =>
        have hless : compare 0 (field :: fields).length = .lt :=
          Nat.compare_eq_lt.2 (Nat.succ_pos _)
        rw [hless]
        simp
    · rw [hspecificity, hlonger _ (by omega)]
      have hne : target ≠ Part.script.target := by
        intro hsame
        rw [hsame] at hshorter
        exact Nat.lt_irrefl _ hshorter
      simp [hne]

theorem overrules_iff {line : Nat} {message : String} (h : f.judge? (spoken line message) = some r) :
    f.Overrules ↔
      (r.target = some Part.script.target ∧ r.fields ≠ []) ∧ r.threshold.passes .info = false := by
  constructor
  · intro hover
    obtain ⟨r', hr', htarget, hfields, hback⟩ := hover
    rw [hr' line message] at h
    cases h
    exact ⟨⟨htarget, hfields⟩, hback⟩
  · intro hback
    obtain ⟨⟨htarget, hfields⟩, hback⟩ := hback
    have hr : ∀ line message, f.judge? (spoken line message) = some r :=
      fun line' message' => (f.judge?_spoken line' line message' message).trans h
    exact ⟨r, hr, htarget, hfields, hback⟩

/-- With the added rule what scripts say passes, unless the rules before that overrule it. -/
theorem passes_concat_scriptRule (f : Filter) (line : Nat) (message : String) :
    passes ⟨f.rules ++ [scriptRule]⟩ (spoken line message) = true ↔ ¬f.Overrules := by
  have hjudge : judge? ⟨f.rules ++ [scriptRule]⟩ (spoken line message) =
      better (f.judge? (spoken line message)) scriptRule := by
    have happlies : scriptRule.applies (spoken line message) = true := by
      simp [Rule.applies, scriptRule, spoken]
    exact judge?_concat rfl happlies f.rules
  unfold passes
  rw [hjudge]
  cases hbest : f.judge? (spoken line message) with
  | none =>
    refine ⟨fun _ => ?_, fun _ => rfl⟩
    intro hover
    obtain ⟨r, hr, _⟩ := hover
    rw [hr line message] at hbest
    cases hbest
  | some r =>
    have hatLeast := atLeast_scriptRule_iff (of_judge? hbest).2
    rw [overrules_iff hbest]
    by_cases hgives : r.target = some Part.script.target ∧ r.fields ≠ []
    · have hkept : better (some r) scriptRule = some r := if_neg fun h => hatLeast.1 h hgives
      rw [hkept]
      simp [hgives, spoken]
    · have hreplaced : better (some r) scriptRule = some scriptRule := if_pos (hatLeast.2 hgives)
      have hpasses : scriptRule.threshold.passes (spoken line message).level = true := rfl
      rw [hreplaced]
      simp [hgives, hpasses]

/-! ## Rules without fields -/

def Bare (f : Filter) : Prop := ∀ r ∈ f.rules, r.fields = []

theorem Bare.not_overrules (h : f.Bare) : ¬f.Overrules := by
  intro hover
  obtain ⟨r, hr, _, hfields, _⟩ := hover
  exact hfields (h r (of_judge? (hr 0 "")).1)

/-- Without fields an event is judged by its part alone. -/
theorem Bare.judge?_congr (h : f.Bare) {e e' : Event} (hpart : e.part = e'.part) :
    f.judge? e = f.judge? e' := by
  unfold judge?
  congr 1
  refine List.filter_congr fun r hr => ?_
  simp [Rule.applies, h r hr, hpart]

end Filter

end Log

namespace CommandLine

open Log

/-! ## The filter of a run -/

/-- The filter that is asked for: what the environment says, or the usual one. -/
def asked (environment : Option String) (verbose : Bool) : String :=
  environment.getD (if verbose then "warn,mcfc_lib=debug,mcfc=debug" else "warn")

/-- What scripts say is printed: the filter that is asked for is well-formed, and does not
overrule it. -/
def Heard (environment : Option String) (verbose : Bool) : Prop :=
  ∃ f, Filter.parse? (asked environment verbose) = some f ∧ ¬f.Overrules

variable {environment : Option String} {verbose : Bool}

theorem parse?_filterText (environment : Option String) (verbose : Bool) :
    Filter.parse? (filterText environment verbose) =
      (Filter.parse? (asked environment verbose)).map fun f => ⟨f.rules ++ [scriptRule]⟩ := by
  have htext : filterText environment verbose =
      asked environment verbose ++ "," ++ "mcfc::log=info" := by
    unfold filterText asked
    rw [String.append_assoc]
    rfl
  rw [htext]
  exact Filter.parse?_concat (by decide +kernel) (by decide +kernel) _

theorem passes_spoken_iff (line : Nat) (message : String) :
    (effectiveFilter environment verbose).passes (spoken line message) = true ↔
      Heard environment verbose := by
  unfold effectiveFilter Heard
  rw [parse?_filterText]
  cases Filter.parse? (asked environment verbose) with
  | none =>
    have hsilent : Filter.warnings.passes (spoken line message) = false := rfl
    simp [hsilent]
  | some f =>
    simp only [Option.map_some, Option.getD_some, Option.some.injEq, exists_eq_left']
    exact f.passes_concat_scriptRule line message

def usualRules (verbose : Bool) : List Rule :=
  ⟨some .warn, none, none, []⟩ ::
    ((if verbose then [⟨some .debug, some "mcfc_lib", none, []⟩, ⟨some .debug, some "mcfc", none, []⟩]
      else []) ++ [scriptRule])

theorem effectiveFilter_none (verbose : Bool) :
    effectiveFilter none verbose = ⟨usualRules verbose⟩ := by
  cases verbose <;> decide +kernel

theorem bare_usual (verbose : Bool) : Filter.Bare ⟨usualRules verbose⟩ := by
  unfold Filter.Bare
  cases verbose <;> decide

def usualLevel (verbose : Bool) (part : Part) : Level :=
  if part = .script then .info else if verbose then .debug else .warn

theorem passes_usual (verbose : Bool) (e : Event) :
    (effectiveFilter none verbose).passes e = true ↔
      e.level.rank ≤ (usualLevel verbose e.part).rank := by
  -- Which rule judges is a matter of the part alone, so there are not many cases.
  have hthreshold : ∀ part,
      (Filter.judge? ⟨usualRules verbose⟩ ⟨.error, part, "", []⟩).map Rule.threshold =
        some (some (usualLevel verbose part)) := by
    intro part
    cases verbose <;> cases part <;> decide +kernel
  have he : Filter.judge? ⟨usualRules verbose⟩ e =
      Filter.judge? ⟨usualRules verbose⟩ ⟨.error, e.part, "", []⟩ :=
    (bare_usual verbose).judge?_congr rfl
  obtain ⟨r, hr, hlevel⟩ := Option.map_eq_some_iff.1 (hthreshold e.part)
  rw [effectiveFilter_none]
  unfold Filter.passes
  rw [he, hr]
  simp [hlevel, Threshold.passes]

theorem heard_of_unset (verbose : Bool) : Heard none verbose :=
  (passes_spoken_iff 0 "").1 ((passes_usual verbose (spoken 0 "")).2 (Nat.le_refl _))

theorem heard_of_bare {f : Filter} (h : Filter.parse? (asked environment verbose) = some f)
    (hbare : f.Bare) : Heard environment verbose := ⟨f, h, hbare.not_overrules⟩

end CommandLine

end Datapack
