import Mathlib.Data.List.Induction
import Mathlib.Data.Nat.Digits.Defs
import Datapack.Proofs.Describing

/-
  Datapack.Proofs.Granting — which arguments an `init` grants.

  A namespace is told by its alphabet (`IsNamespaceText`), a pack format by its notation: a
  `+`, which may be missing, and decimal digits, with the number that these digits write in
  positional notation (`Writes`). Digits in front that are zero, and any number of them, are
  all right, since only the number has to fit into 32 bits.

  What the reader of pack formats accepts is that notation with such a number, and it gives
  that number (`packFormat?_iff`); adding up the digits never leaves the natural numbers, so
  nothing wraps (`decimal_eq_ofDigits`). The options that are granted follow, and which of
  the two arguments is told to be wrong (`ofArguments_grants`).
-/

namespace Datapack

namespace SkeletonOptions

def alphabet : List Char := "abcdefghijklmnopqrstuvwxyz0123456789_-.".toList

def digitChars : List Char := "0123456789".toList

def IsNamespaceText (ns : String) : Prop := ns.toList ≠ [] ∧ ∀ c ∈ ns.toList, c ∈ alphabet

def value (digits : List Char) : Nat := Nat.ofDigits 10 (digits.reverse.map digitChars.idxOf)

/-- The text writes the number: digits, one at least, and maybe a `+` in front of them. -/
def Writes (text : String) (v : Nat) : Prop :=
  ∃ sign digits, (sign = [] ∨ sign = ['+']) ∧ text.toList = sign ++ digits ∧ digits ≠ [] ∧
    (∀ c ∈ digits, c ∈ digitChars) ∧ v = value digits

variable {ns text : String} {digits : List Char}

/-! ## Characters -/

theorem isNamespaceChar_iff (c : Char) : isNamespaceChar c = true ↔ c ∈ alphabet := by
  have hlow : ∀ n : Fin 128, isNamespaceChar (Char.ofNat n) = true ↔ Char.ofNat n ∈ alphabet := by
    decide +kernel
  have hchar : c.toNat < 128 → (isNamespaceChar c = true ↔ c ∈ alphabet) := by
    intro hc
    simpa using hlow ⟨c.toNat, hc⟩
  constructor
  · intro h
    refine (hchar ?_).1 h
    have hlower : c.isLower = (decide (c.val ≥ 'a'.val) && decide (c.val ≤ 'z'.val)) := rfl
    simp only [isNamespaceChar, hlower, Char.isDigit, Bool.or_eq_true, Bool.and_eq_true,
      decide_eq_true_eq] at h
    rcases h with (((⟨-, h⟩ | ⟨-, h⟩) | rfl) | rfl) | rfl
    · exact Nat.lt_of_le_of_lt (UInt32.le_iff_toNat_le.1 h) (by decide)
    · exact Nat.lt_of_le_of_lt (UInt32.le_iff_toNat_le.1 h) (by decide)
    all_goals decide
  · intro h
    have hsmall : alphabet.all (·.toNat < 128) = true := by decide
    have hc : c.toNat < 128 := of_decide_eq_true (List.all_eq_true.1 hsmall c h)
    exact (hchar hc).2 h

theorem isNamespace_iff : isNamespace ns = true ↔ IsNamespaceText ns := by
  simp only [isNamespace, IsNamespaceText, Bool.and_eq_true, decide_eq_true_eq, List.all_eq_true,
    isNamespaceChar_iff]

theorem isDigit_iff (c : Char) : c.isDigit = true ↔ c ∈ digitChars := by
  constructor
  · intro h
    have hlow : ∀ n : Fin 128, (Char.ofNat n).isDigit = true → Char.ofNat n ∈ digitChars := by
      decide +kernel
    have hc : c.toNat < 128 := by
      simp only [Char.isDigit, Bool.and_eq_true, decide_eq_true_eq] at h
      exact Nat.lt_of_le_of_lt (UInt32.le_iff_toNat_le.1 h.2) (by decide)
    have hsame : Char.ofNat (⟨c.toNat, hc⟩ : Fin 128) = c := Char.ofNat_toNat c
    have hin := hlow ⟨c.toNat, hc⟩
    rw [hsame] at hin
    exact hin h
  · intro h
    have hall : digitChars.all Char.isDigit = true := by decide
    exact List.all_eq_true.1 hall c h

/-! ## Digits -/

/-- Reading digits one by one gives the number that they write. -/
theorem decimal_eq_ofDigits (h : ∀ c ∈ digits, c ∈ digitChars) : decimal digits = value digits := by
  induction digits using List.reverseRecOn with
  | nil => rfl
  | append_singleton front c ih =>
    have hfront := ih fun k hk => h k (List.mem_append_left _ hk)
    have hdigit : digitChars.all (fun c => digitChars.idxOf c = c.toNat - '0'.toNat) = true := by
      decide
    have hc : digitChars.idxOf c = c.toNat - '0'.toNat :=
      of_decide_eq_true (List.all_eq_true.1 hdigit c (h c (by simp)))
    unfold decimal value at *
    rw [List.foldl_append, List.foldl_cons, List.foldl_nil, hfront, List.reverse_append,
      List.reverse_singleton, List.map_append, List.map_singleton, List.singleton_append,
      Nat.ofDigits_cons, hc]
    omega

def unsigned : List Char → List Char
  | '+' :: digits => digits
  | digits => digits

theorem unsigned_of_ne {cs : List Char} (h : cs.head? ≠ some '+') : unsigned cs = cs := by
  unfold unsigned
  split
  · exact absurd rfl h
  · rfl

theorem packFormat?_eq (text : String) : packFormat? text =
    if unsigned text.toList ≠ [] && (unsigned text.toList).all Char.isDigit then
      if decimal (unsigned text.toList) < UInt32.size then
        some (UInt32.ofNat (decimal (unsigned text.toList)))
      else none
    else none := rfl

theorem areDigits_iff {cs : List Char} : (cs ≠ [] && cs.all Char.isDigit) = true ↔
    cs ≠ [] ∧ ∀ c ∈ cs, c ∈ digitChars := by
  simp only [Bool.and_eq_true, decide_eq_true_eq, List.all_eq_true, isDigit_iff]

/-- A text writes the number of its digits, and no other. -/
theorem writes_iff {v : Nat} : Writes text v ↔ (unsigned text.toList ≠ [] ∧
    ∀ c ∈ unsigned text.toList, c ∈ digitChars) ∧ v = decimal (unsigned text.toList) := by
  constructor
  · rintro ⟨sign, digits, hsign, htext, hne, hdigits, rfl⟩
    have hunsigned : unsigned text.toList = digits := by
      rw [htext]
      rcases hsign with rfl | rfl
      · refine unsigned_of_ne fun hplus => ?_
        exact absurd (hdigits '+' (List.mem_of_mem_head? hplus)) (by decide)
      · rfl
    rw [hunsigned]
    exact ⟨⟨hne, hdigits⟩, (decimal_eq_ofDigits hdigits).symm⟩
  · rintro ⟨⟨hne, hdigits⟩, rfl⟩
    rw [decimal_eq_ofDigits hdigits]
    by_cases hplus : text.toList.head? = some '+'
    · obtain ⟨digits, hcs⟩ := List.head?_eq_some_iff.1 hplus
      have hunsigned : unsigned text.toList = digits := by
        rw [hcs]
        rfl
      rw [hunsigned] at hne hdigits ⊢
      exact ⟨['+'], digits, .inr rfl, hcs, hne, hdigits, rfl⟩
    · rw [unsigned_of_ne hplus] at hne hdigits ⊢
      exact ⟨[], text.toList, .inl rfl, rfl, hne, hdigits, rfl⟩

/-- The pack formats are the texts that write a number of 32 bits. -/
theorem packFormat?_iff {format : UInt32} : packFormat? text = some format ↔
    Writes text format.toNat := by
  rw [packFormat?_eq, writes_iff, ← areDigits_iff]
  split
  · rename_i hdigits
    rw [and_iff_right hdigits]
    split
    · rename_i hlt
      rw [Option.some.injEq]
      constructor
      · rintro rfl
        exact UInt32.toNat_ofNat_of_lt hlt
      · intro hformat
        rw [← hformat, UInt32.ofNat_toNat]
    · rename_i hlt
      refine ⟨nofun, fun hformat => ?_⟩
      exact absurd (hformat ▸ format.toNat_lt) hlt
  · rename_i hdigits
    exact ⟨nofun, fun h => absurd h.1 hdigits⟩

theorem writes_toString (n : Nat) : Writes (toString n) n := by
  have htext : (toString n).toList = Nat.toDigits 10 n := by
    rw [Nat.toString_eq_repr, Nat.repr, String.toList_ofList]
  have hdigits : ∀ c ∈ Nat.toDigits 10 n, c ∈ digitChars :=
    fun c hc => (isDigit_iff c).1 (Text.Json.isDigit_of_mem_toDigits hc)
  refine ⟨[], Nat.toDigits 10 n, .inl rfl, htext, Nat.toDigits_ne_nil, hdigits, ?_⟩
  rw [← decimal_eq_ofDigits hdigits, decimal_toDigits]

/-- A text that writes a number of 32 bits is read as that number. -/
theorem packFormat?_of_writes {v : Nat} (h : Writes text v) (hle : v ≤ 2 ^ 32 - 1) :
    packFormat? text = some (UInt32.ofNat v) ∧ (UInt32.ofNat v).toNat = v := by
  have hlt : v < UInt32.size := Nat.lt_of_le_of_lt hle (by decide)
  have hsame : (UInt32.ofNat v).toNat = v := UInt32.toNat_ofNat_of_lt hlt
  exact ⟨packFormat?_iff.2 (hsame.symm ▸ h), hsame⟩

theorem packFormat?_eq_none (h : ¬∃ v, Writes text v ∧ v ≤ 2 ^ 32 - 1) : packFormat? text = none := by
  refine Option.eq_none_iff_forall_ne_some.2 fun format hformat => h ?_
  have hlt := format.toNat_lt
  exact ⟨_, packFormat?_iff.1 hformat, by omega⟩

/-! ## Arguments -/

theorem ofArguments_of_not_namespace (h : ¬IsNamespaceText ns) (format description : Option String) :
    ofArguments ns format description = .error (.invalidNamespace ns) := by
  unfold ofArguments
  rw [if_neg fun hns => h (isNamespace_iff.1 hns)]

theorem ofArguments_of_namespace (h : IsNamespaceText ns) (text : String)
    (description : Option String) : ofArguments ns (some text) description =
      match packFormat? text with
      | some format => .ok ⟨ns, format, description.getD defaultDescription⟩
      | none => .error (.invalidPackFormat text) := by
  unfold ofArguments
  exact (if_pos (isNamespace_iff.2 h)).trans rfl

theorem ofArguments_of_writes (h : IsNamespaceText ns) {v : Nat} (hv : Writes text v)
    (hle : v ≤ 2 ^ 32 - 1) (description : Option String) : ofArguments ns (some text) description =
      .ok ⟨ns, UInt32.ofNat v, description.getD defaultDescription⟩ := by
  rw [ofArguments_of_namespace h, (packFormat?_of_writes hv hle).1]

theorem ofArguments_of_not_writes (h : IsNamespaceText ns)
    (hnone : ¬∃ v, Writes text v ∧ v ≤ 2 ^ 32 - 1) (description : Option String) :
    ofArguments ns (some text) description = .error (.invalidPackFormat text) := by
  rw [ofArguments_of_namespace h, packFormat?_eq_none hnone]

/-- What is granted is a namespace and a number, just as they are written. -/
theorem ofArguments_ok_iff {description : Option String} {options : SkeletonOptions} :
    ofArguments ns (some text) description = .ok options ↔
      IsNamespaceText ns ∧ ∃ v, Writes text v ∧ v ≤ 2 ^ 32 - 1 ∧ options.packFormat.toNat = v ∧
        options.ns = ns ∧ options.description = description.getD defaultDescription := by
  by_cases hns : IsNamespaceText ns
  · by_cases hv : ∃ v, Writes text v ∧ v ≤ 2 ^ 32 - 1
    · obtain ⟨v, hv, hle⟩ := hv
      obtain ⟨-, hsame⟩ := packFormat?_of_writes hv hle
      rw [ofArguments_of_writes hns hv hle, Except.ok.injEq]
      constructor
      · rintro rfl
        exact ⟨hns, v, hv, hle, hsame, rfl, rfl⟩
      · obtain ⟨ns', format, description'⟩ := options
        rintro ⟨-, u, hu, -, rfl, rfl, rfl⟩
        rw [(writes_iff.1 hv).2, ← (writes_iff.1 hu).2, UInt32.ofNat_toNat]
    · rw [ofArguments_of_not_writes hns hv]
      refine ⟨nofun, ?_⟩
      rintro ⟨-, v, hwrites, hle, -⟩
      exact absurd ⟨v, hwrites, hle⟩ hv
  · rw [ofArguments_of_not_namespace hns]
    exact ⟨nofun, fun h => absurd h.1 hns⟩

/-- The arguments of an `init` are granted just if the one is a namespace and the other writes
a number below 2^32, and then they are taken as they are. A namespace that is none is refused
whatever else there is, and a pack format that is none with its text. The decimal text of a
number is read as that number, or refused if the number is too large. -/
theorem ofArguments_grants (ns text : String) (description : Option String) :
    (∀ options, ofArguments ns (some text) description = .ok options ↔
      IsNamespaceText ns ∧ ∃ v, Writes text v ∧ v ≤ 2 ^ 32 - 1 ∧ options.packFormat.toNat = v ∧
        options.ns = ns ∧ options.description = description.getD defaultDescription) ∧
    (¬IsNamespaceText ns →
      ∀ format, ofArguments ns format description = .error (.invalidNamespace ns)) ∧
    (IsNamespaceText ns → (¬∃ v, Writes text v ∧ v ≤ 2 ^ 32 - 1) →
      ofArguments ns (some text) description = .error (.invalidPackFormat text)) ∧
    (IsNamespaceText ns → ∀ n : Nat,
      (n < 2 ^ 32 → ∃ options, ofArguments ns (some (toString n)) description = .ok options ∧
        options.packFormat.toNat = n) ∧
      (2 ^ 32 ≤ n → ofArguments ns (some (toString n)) description =
        .error (.invalidPackFormat (toString n)))) := by
  refine ⟨fun options => ofArguments_ok_iff, fun hns format => ofArguments_of_not_namespace hns format _,
    fun hns hnone => ofArguments_of_not_writes hns hnone _, fun hns n => ⟨fun hlt => ?_, fun hge => ?_⟩⟩
  · have hle : n ≤ 2 ^ 32 - 1 := by omega
    obtain ⟨-, hsame⟩ := packFormat?_of_writes (writes_toString n) hle
    exact ⟨_, ofArguments_of_writes hns (writes_toString n) hle _, hsame⟩
  · refine ofArguments_of_not_writes hns ?_ _
    rintro ⟨v, hv, hle⟩
    have hsame : n = v := (writes_iff.1 (writes_toString n)).2.trans (writes_iff.1 hv).2.symm
    omega

/-- The largest pack format, with a sign and zeros in front, and the one behind it. -/
theorem ofArguments_grants_largest :
    let granted := SkeletonOptions.ofArguments "a.b" (some "+0004294967295") none
    (IsNamespaceText "a.b" ∧ Writes "+0004294967295" 4294967295) ∧
      (∃ options, granted = .ok options ∧ options.packFormat.toNat = 4294967295) ∧
      ofArguments "a.b" (some (toString 4294967296)) none =
        .error (.invalidPackFormat (toString 4294967296)) := by
  intro granted
  have hns : IsNamespaceText "a.b" := isNamespace_iff.1 (by decide)
  have hwrites : Writes "+0004294967295" 4294967295 :=
    writes_iff.2 ⟨areDigits_iff.1 (by decide), by decide⟩
  obtain ⟨hiff, -, -, -⟩ := ofArguments_grants "a.b" "+0004294967295" none
  obtain ⟨-, -, -, hread⟩ := ofArguments_grants "a.b" "" none
  refine ⟨⟨hns, hwrites⟩, ⟨⟨"a.b", 4294967295, defaultDescription⟩, ?_, by decide⟩, ?_⟩
  · exact (hiff _).2 ⟨hns, _, hwrites, by decide, by decide, rfl, rfl⟩
  · exact (hread hns 4294967296).2 (by decide)

end SkeletonOptions

end Datapack
