import Datapack.Proofs.Laying

/-
  Datapack.Proofs.Naming — the directory that a namespace names.

  A namespace is one name along a path. Unless it is `.` or `..` it names a directory of its
  own, in the `data` of the working location that the datapack is laid out at, and the
  functions are in that one (`layOut_names_home`). The paths of both are the working location
  with these names behind it, so they are normalised if that is. And datapacks that are laid
  out at one location share neither home nor functions, if their namespaces differ.

  What is left out does fail (`layOut_names_home_fails`). The alphabet of namespaces has the
  dot, so `.` and `..` are namespaces as well: with the one the home is `data` itself, with
  the other the working location. And a location that is not normalised gives paths that are
  not.
-/

namespace Datapack

theorem Path.normalize_child {p : Path} {name : String} (hp : p.isAbsolute = true)
    (h : p.normalize = p) (hname : IsStretch name) (hdot : name ≠ "." ∧ name ≠ "..") :
    (p.child name).normalize = p.child name := by
  have hcanonical := isCanonical_normalize hp
  rw [h] at hcanonical
  exact (hcanonical.child_of_clean hname hdot).normalize_eq

namespace Skeleton

variable {root : Path} {ns : String}

/-- The home and the functions are normalised if the root is. -/
theorem normalize_parts (hr : root.isAbsolute = true) (h : root.normalize = root)
    (hns : Path.IsStretch ns) (hdot : ns ≠ "." ∧ ns ≠ "..") :
    (Skeleton.at root ns).home.normalize = (Skeleton.at root ns).home ∧
      (Skeleton.at root ns).functions.normalize = (Skeleton.at root ns).functions := by
  have hdata := Path.normalize_child hr h (isStretch_part "data" (by decide)) (by decide)
  have hhome : (Skeleton.at root ns).home.normalize = (Skeleton.at root ns).home :=
    Path.normalize_child (isAbsolute_part (by decide) hr) hdata hns hdot
  exact ⟨hhome, Path.normalize_child (isAbsolute_home hns hr) hhome
    (isStretch_part "functions" (by decide)) (by decide)⟩

/-- Where the parts of a datapack with such a namespace are. -/
theorem fold_parts (root : Path) (hns : Path.IsStretch ns) (hdot : ns ≠ "." ∧ ns ≠ "..") :
    Path.fold (root.child "data").names = Path.fold root.names ++ ["data"] ∧
      Path.fold (Skeleton.at root ns).home.names = Path.fold root.names ++ ["data"] ++ [ns] ∧
      Path.fold (Skeleton.at root ns).functions.names =
        Path.fold root.names ++ ["data"] ++ [ns, "functions"] := by
  have hdata : Path.fold (root.child "data").names = Path.fold root.names ++ ["data"] :=
    fold_part (by decide) root
  have hhome : Path.fold (Skeleton.at root ns).home.names =
      Path.fold root.names ++ ["data"] ++ [ns] := by
    rw [← hdata]
    exact Path.fold_child hns hdot
  refine ⟨hdata, hhome, ?_⟩
  have hfunctions : Path.fold (Skeleton.at root ns).functions.names =
      Path.fold (Skeleton.at root ns).home.names ++ ["functions"] := fold_part (by decide) _
  rw [hfunctions, hhome, List.append_assoc _ [ns] ["functions"], List.singleton_append]

end Skeleton

theorem Disk.find_of_isDir_linkFree {d : Disk} {p : Path} (hd : d.tree.LinkFree)
    (hp : p.isAbsolute = true) (h : d.isDir p = true) : d.find p = .ok (Path.fold p.names) := by
  rcases land_of_isDir_cases h with ⟨q, hl, _⟩ | hl
  · have hfind := find_iff.2 hl
    rwa [find_of_linkFree hd hp hfind] at hfind
  · exact absurd rfl ((land_iff hp).1 hl).2.2.ne_removed

namespace World

open Skeleton

variable {w : World} {ns : String} {format description : Option String} {options : SkeletonOptions}

/-- The parts of a datapack that has been laid out are where their names say. -/
theorem find_of_layOut (hd : w.disk.tree.LinkFree) (hc : w.session.anchors.cwd.isAbsolute = true)
    (hns : Path.IsStretch options.ns) {made : Skeleton} (h : (w.layOut options).2 = .ok made) :
    let d := (w.layOut options).1.1.disk
    d.find (w.session.anchors.cwd.child "data") =
        .ok (Path.fold (w.session.anchors.cwd.child "data").names) ∧
      (d.find made.home = .ok (Path.fold made.home.names) ∧ d.isDir made.home = true) ∧
      (d.find made.functions = .ok (Path.fold made.functions.names) ∧
        d.isDir made.functions = true) := by
  obtain ⟨rfl, hw, hfree, hholds⟩ := stands_of_layOut hd hc hns h
  obtain ⟨hhome, hfunctions⟩ := isDir_of_stands hfree hc hns hholds
  have hdata := Disk.isDir_of_child hfree (isAbsolute_part (by decide) hc) hns hhome
  intro d
  have hdisk : d = (w.laidOut options).disk := congrArg World.disk hw
  rw [hdisk]
  exact ⟨Disk.find_of_isDir_linkFree hfree (isAbsolute_part (by decide) hc) hdata,
    ⟨Disk.find_of_isDir_linkFree hfree (isAbsolute_home hns hc) hhome, hhome⟩,
    Disk.find_of_isDir_linkFree hfree (isAbsolute_functions hns hc) hfunctions, hfunctions⟩

/-- Unless the namespace is `.` or `..` they lie one in the other. -/
theorem find_of_layOut_named (hd : w.disk.tree.LinkFree)
    (hc : w.session.anchors.cwd.isAbsolute = true)
    (ho : SkeletonOptions.ofArguments ns format description = .ok options)
    (hdot : ns ≠ "." ∧ ns ≠ "..") {made : Skeleton} (h : (w.layOut options).2 = .ok made) :
    let place := Path.fold w.session.anchors.cwd.names ++ ["data"]
    let d := (w.layOut options).1.1.disk
    d.find (w.session.anchors.cwd.child "data") = .ok place ∧
      (d.find made.home = .ok (place ++ [ns]) ∧ d.isDir made.home = true) ∧
      (d.find made.functions = .ok (place ++ [ns, "functions"]) ∧ d.isDir made.functions = true) := by
  obtain ⟨hns, hnamespace⟩ := isNamespace_of_ofArguments ho
  have hstretch := isStretch_of_isNamespace hnamespace
  subst hns
  obtain ⟨hdata, ⟨hhome, hdirHome⟩, hfunctions, hdirFunctions⟩ := find_of_layOut hd hc hstretch h
  obtain ⟨rfl, -⟩ := stands_of_layOut hd hc hstretch h
  obtain ⟨hfold, hfoldHome, hfoldFunctions⟩ :=
    fold_parts w.session.anchors.cwd hstretch hdot
  rw [hfold] at hdata
  rw [hfoldHome] at hhome
  rw [hfoldFunctions] at hfunctions
  exact ⟨hdata, ⟨hhome, hdirHome⟩, hfunctions, hdirFunctions⟩

/-- The home is the directory with the namespace as its name in `data`, and the new working
location is `functions` in that one. Their paths are the old location with these names
behind it. Another namespace has another home and other functions there. -/
theorem layOut_names_home (hd : w.disk.tree.LinkFree) (hc : w.session.anchors.cwd.isAbsolute = true)
    (ho : SkeletonOptions.ofArguments ns format description = .ok options)
    (hdot : ns ≠ "." ∧ ns ≠ "..") {made : Skeleton} (h : (w.layOut options).2 = .ok made) :
    let c := w.session.anchors.cwd
    let w' := (w.layOut options).1.1
    (∃ place, w'.disk.find (c.child "data") = .ok place ∧
      (w'.disk.find made.home = .ok (place ++ [ns]) ∧ w'.disk.isDir made.home = true) ∧
      (w'.disk.find made.functions = .ok (place ++ [ns, "functions"]) ∧
        w'.disk.isDir made.functions = true)) ∧
    w'.session.anchors = ⟨made.functions, some c, some made.home⟩ ∧
    made.home = (c.child "data").child ns ∧ made.functions = made.home.child "functions" ∧
    (c.normalize = c →
      made.home.normalize = made.home ∧ made.functions.normalize = made.functions) ∧
    ∀ {v : World} {ns' : String} {format' description' : Option String} {options' : SkeletonOptions}
      {other : Skeleton}, v.disk.tree.LinkFree → v.session.anchors.cwd = c →
      SkeletonOptions.ofArguments ns' format' description' = .ok options' →
      ns' ≠ "." ∧ ns' ≠ ".." → (v.layOut options').2 = .ok other → ns' ≠ ns →
      (v.layOut options').1.1.disk.find other.home ≠ w'.disk.find made.home ∧
        (v.layOut options').1.1.disk.find other.functions ≠ w'.disk.find made.functions := by
  obtain ⟨hdata, hhome, hfunctions⟩ := find_of_layOut_named hd hc ho hdot h
  obtain ⟨hns, hnamespace⟩ := isNamespace_of_ofArguments ho
  have hstretch := isStretch_of_isNamespace hnamespace
  subst hns
  obtain ⟨rfl, hw, -, -⟩ := stands_of_layOut hd hc hstretch h
  intro c w'
  have hw' : w' = w.laidOut options := hw
  refine ⟨⟨_, hdata, hhome, hfunctions⟩, by rw [hw']; rfl, rfl, rfl,
    fun hnormal => normalize_parts hc hnormal hstretch hdot, ?_⟩
  intro v ns' format' description' options' other hd' hc' ho' hdot' h' hne
  obtain ⟨-, ⟨hhome', -⟩, hfunctions', -⟩ :=
    find_of_layOut_named hd' (hc' ▸ hc) ho' hdot' h'
  rw [hhome', hfunctions', hhome.1, hfunctions.1, hc']
  constructor
  · intro he
    cases List.append_cancel_left (Except.ok.inj he)
    exact hne rfl
  · intro he
    cases List.append_cancel_left (Except.ok.inj he)
    exact hne rfl

def plainOptions (ns : String) : SkeletonOptions :=
  ⟨ns, SkeletonOptions.defaultPackFormat, SkeletonOptions.defaultDescription⟩

def atPack : World := atLocation ⟨"/p"⟩

theorem layOut_names_home_plain :
    let w' := (atPack.layOut (plainOptions "n")).1.1
    SkeletonOptions.ofArguments "n" none none = .ok (plainOptions "n") ∧
      (atPack.layOut (plainOptions "n")).2 = .ok (Skeleton.at ⟨"/p"⟩ "n") ∧
      ∃ place, w'.disk.find ⟨"/p/data"⟩ = .ok place ∧
        w'.disk.find ⟨"/p/data/n"⟩ = .ok (place ++ ["n"]) ∧
        w'.disk.find ⟨"/p/data/n/functions"⟩ = .ok (place ++ ["n", "functions"]) := by
  intro w'
  have hoptions : SkeletonOptions.ofArguments "n" none none = .ok (plainOptions "n") :=
    ok_of_toOption (by decide +kernel)
  have hnone : (Skeleton.layOut atPack.session.anchors.cwd (plainOptions "n") atPack.disk).error = none := by
    decide +kernel
  obtain ⟨notes, hlaid⟩ := layOut_of_none hnone
  have hresult : (atPack.layOut (plainOptions "n")).2 = .ok (Skeleton.at ⟨"/p"⟩ "n") :=
    congrArg Prod.snd hlaid
  obtain ⟨⟨place, hdata, ⟨hhome, -⟩, hfunctions, -⟩, -⟩ :=
    layOut_names_home (w := atPack) (linkFree_atLocation _) (by decide +kernel) hoptions (by decide) hresult
  have hpaths : atPack.session.anchors.cwd.child "data" = ⟨"/p/data"⟩ ∧
      (Skeleton.at ⟨"/p"⟩ "n").home = ⟨"/p/data/n"⟩ ∧
      (Skeleton.at ⟨"/p"⟩ "n").functions = ⟨"/p/data/n/functions"⟩ := by decide +kernel
  rw [hpaths.1] at hdata
  rw [hpaths.2.1] at hhome
  rw [hpaths.2.2] at hfunctions
  exact ⟨hoptions, hresult, place, hdata, hhome, hfunctions⟩

/-- The namespaces `..` and `.` are accepted, but name no directory in `data`: with the one the
home is the working location, and with the other it is `data` itself. And from a location
that is not normalised the home is not either. -/
theorem layOut_names_home_fails :
    (SkeletonOptions.ofArguments ".." none none = .ok (plainOptions "..") ∧
      ∃ made, (atPack.layOut (plainOptions "..")).2 = .ok made ∧
        (atPack.layOut (plainOptions "..")).1.1.disk.find ⟨"/p/data"⟩ = .ok ["p", "data"] ∧
        (atPack.layOut (plainOptions "..")).1.1.disk.find made.home = .ok ["p"]) ∧
    (SkeletonOptions.ofArguments "." none none = .ok (plainOptions ".") ∧
      ∃ made, (atPack.layOut (plainOptions ".")).2 = .ok made ∧
        (atPack.layOut (plainOptions ".")).1.1.disk.find made.home = .ok ["p", "data"]) ∧
    (SkeletonOptions.ofArguments "n" none none = .ok (plainOptions "n") ∧
      ∃ made, (atDetour.layOut (plainOptions "n")).2 = .ok made ∧ made.home.normalize ≠ made.home) := by
  have hpath : atPack.session.anchors.cwd.child "data" = ⟨"/p/data"⟩ := by decide +kernel
  refine ⟨⟨ok_of_toOption (by decide +kernel), Skeleton.at ⟨"/p"⟩ "..", ?_⟩,
    ⟨ok_of_toOption (by decide +kernel), Skeleton.at ⟨"/p"⟩ ".", ?_⟩,
    ⟨ok_of_toOption (by decide +kernel), Skeleton.at ⟨"/p/q/.."⟩ "n", ?_, by decide +kernel⟩⟩
  · obtain ⟨notes, hlaid⟩ : ∃ notes, atPack.layOut (plainOptions "..") =
        ((atPack.laidOut (plainOptions ".."), notes), .ok (Skeleton.at ⟨"/p"⟩ "..")) :=
      layOut_of_none (by decide +kernel)
    have hresult := congrArg Prod.snd hlaid
    have hns : Path.IsStretch (plainOptions "..").ns := isStretch_of_isNamespace (by decide)
    obtain ⟨hdata, ⟨hhome, -⟩, -⟩ :=
      find_of_layOut (w := atPack) (linkFree_atLocation _) (by decide +kernel) hns hresult
    rw [hpath] at hdata
    exact ⟨hresult, hdata, hhome⟩
  · obtain ⟨notes, hlaid⟩ : ∃ notes, atPack.layOut (plainOptions ".") =
        ((atPack.laidOut (plainOptions "."), notes), .ok (Skeleton.at ⟨"/p"⟩ ".")) :=
      layOut_of_none (by decide +kernel)
    have hresult := congrArg Prod.snd hlaid
    have hns : Path.IsStretch (plainOptions ".").ns := isStretch_of_isNamespace (by decide)
    obtain ⟨-, ⟨hhome, -⟩, -⟩ :=
      find_of_layOut (w := atPack) (linkFree_atLocation _) (by decide +kernel) hns hresult
    exact ⟨hresult, hhome⟩
  · obtain ⟨notes, hlaid⟩ : ∃ notes, atDetour.layOut (plainOptions "n") =
        ((atDetour.laidOut (plainOptions "n"), notes), .ok (Skeleton.at ⟨"/p/q/.."⟩ "n")) :=
      layOut_of_none (by decide +kernel)
    exact congrArg Prod.snd hlaid

end World

end Datapack
