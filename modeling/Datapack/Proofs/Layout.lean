import Datapack.Skeleton
import Datapack.Proofs.Names

/-
  Datapack.Proofs.Layout — the paths that a datapack is laid out at.

  A namespace is one name along a path, so each part of a datapack has the names of the
  root and a few more (`names_home`, `names_functions`, `fold_tagDirectory`), and all steps of
  the plan have absolute paths if the root has (`isAbsolute_plan`). A namespace may be `..`, which
  takes back the `data` in front of it, and nothing else: folded, the home and the
  functions lie at the root or below it (`prefix_fold_home`, `prefix_fold_functions`).
-/

namespace Datapack

theorem isStretch_of_isNamespace {ns : String} (h : SkeletonOptions.isNamespace ns = true) :
    Path.IsStretch ns := by
  simp only [SkeletonOptions.isNamespace, Bool.and_eq_true, decide_eq_true_eq] at h
  refine ⟨fun he => h.1 (by rw [he]; rfl), fun hs => ?_⟩
  have := List.all_eq_true.1 h.2 '/' hs
  revert this
  decide

theorem isNamespace_of_ofArguments {ns : String} {format description : Option String}
    {options : SkeletonOptions}
    (h : SkeletonOptions.ofArguments ns format description = .ok options) :
    options.ns = ns ∧ SkeletonOptions.isNamespace ns = true := by
  unfold SkeletonOptions.ofArguments at h
  split at h
  · rename_i hns
    refine ⟨?_, hns⟩
    split at h
    · cases h; rfl
    · split at h
      · cases h; rfl
      · cases h
  · cases h

theorem Path.fold_child {base : Path} {name : String} (hname : IsStretch name)
    (hdot : name ≠ "." ∧ name ≠ "..") : fold (base.child name).names = fold base.names ++ [name] := by
  rw [names_child hname, fold_concat, foldName, if_neg hdot.1, if_neg hdot.2]

def LayoutStep.path : LayoutStep → Path
  | dir p | file p _ => p

namespace Skeleton

theorem isStretch_part : ∀ part ∈ ["data", "minecraft", "tags", "functions", "pack.mcmeta",
    "tick.json", "load.json"], Path.IsStretch part := by
  unfold Path.IsStretch
  decide

variable {root : Path} {ns : String}

theorem names_home (h : Path.IsStretch ns) :
    (Skeleton.at root ns).home.names = root.names ++ ["data"] ++ [ns] := by
  rw [Skeleton.at, Path.names_child h, Path.names_child (isStretch_part _ (by decide))]

theorem names_functions (h : Path.IsStretch ns) :
    (Skeleton.at root ns).functions.names = root.names ++ ["data"] ++ [ns] ++ ["functions"] := by
  rw [Skeleton.at, Path.names_child (isStretch_part _ (by decide)), Path.names_child h,
    Path.names_child (isStretch_part _ (by decide))]

theorem isAbsolute_home (h : Path.IsStretch ns) (hr : root.isAbsolute = true) :
    (Skeleton.at root ns).home.isAbsolute = true := by
  rw [Skeleton.at, Path.isAbsolute_child h, Path.isAbsolute_child (isStretch_part _ (by decide)), hr]

theorem isAbsolute_functions (h : Path.IsStretch ns) (hr : root.isAbsolute = true) :
    (Skeleton.at root ns).functions.isAbsolute = true := by
  rw [Skeleton.at, Path.isAbsolute_child (isStretch_part _ (by decide)), Path.isAbsolute_child h,
    Path.isAbsolute_child (isStretch_part _ (by decide)), hr]

theorem prefix_fold_home (h : Path.IsStretch ns) :
    Path.fold root.names <+: Path.fold (Skeleton.at root ns).home.names := by
  rw [names_home h, Path.fold_concat, Path.fold_concat]
  have : Path.foldName (Path.fold root.names) "data" = Path.fold root.names ++ ["data"] := rfl
  rw [this]
  exact Path.prefix_foldName_concat (List.prefix_refl _) _ _

theorem prefix_fold_functions (h : Path.IsStretch ns) :
    Path.fold root.names <+: Path.fold (Skeleton.at root ns).functions.names := by
  have hh : Path.fold root.names <+: Path.fold (Skeleton.at root ns).home.names :=
    prefix_fold_home h
  rw [names_home h] at hh
  rw [names_functions h, Path.fold_concat]
  exact Path.prefix_foldName hh (by decide)

/-! ## Parts with a fixed name -/

section

variable {part : String}
  (h : part ∈ ["data", "minecraft", "tags", "functions", "pack.mcmeta", "tick.json", "load.json"])
include h

theorem isAbsolute_part {base : Path} (hb : base.isAbsolute = true) :
    (base.child part).isAbsolute = true := by
  rw [Path.isAbsolute_child (isStretch_part part h), hb]

theorem fold_part (base : Path) : Path.fold (base.child part).names = Path.fold base.names ++ [part] := by
  refine Path.fold_child (isStretch_part part h) ⟨?_, ?_⟩
  all_goals
    rintro rfl
    revert h
    decide

end

theorem fold_tagDirectory (root : Path) : Path.fold (tagDirectory root).names =
    Path.fold root.names ++ ["data", "minecraft", "tags", "functions"] := by
  simp only [tagDirectory, List.foldl_cons, List.foldl_nil]
  rw [fold_part (by decide), fold_part (by decide), fold_part (by decide), fold_part (by decide)]
  simp

theorem isAbsolute_tagDirectory (hr : root.isAbsolute = true) :
    (tagDirectory root).isAbsolute = true := by
  have hdata : (root.child "data").isAbsolute = true := isAbsolute_part (by decide) hr
  have hgame : ((root.child "data").child "minecraft").isAbsolute = true :=
    isAbsolute_part (by decide) hdata
  simp only [tagDirectory, List.foldl_cons, List.foldl_nil]
  exact isAbsolute_part (by decide) (isAbsolute_part (by decide) hgame)

theorem isAbsolute_plan {options : SkeletonOptions} (hr : root.isAbsolute = true)
    (hns : Path.IsStretch options.ns) {step : LayoutStep} (h : step ∈ plan root options) :
    step.path.isAbsolute = true := by
  have htags := isAbsolute_tagDirectory hr
  simp only [plan, List.mem_cons, List.not_mem_nil, or_false] at h
  rcases h with rfl | rfl | rfl | rfl | rfl
  all_goals simp only [LayoutStep.path]
  · exact htags
  · exact isAbsolute_functions hns hr
  all_goals simp only [Skeleton.at]
  · exact isAbsolute_part (by decide) hr
  · exact isAbsolute_part (by decide) htags
  · exact isAbsolute_part (by decide) htags

end Skeleton

end Datapack
