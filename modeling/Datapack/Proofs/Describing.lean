import Datapack.Skeleton
import Datapack.Proofs.Encoding
import Datapack.Proofs.Parsing

/-
  Datapack.Proofs.Describing — the documents of a datapack, read back.

  What is written is a document of what was to be written: each escape stands for the
  character that was escaped (`escapeChar_cases`), digits are a number, and the line ends
  and spaces between the parts are blanks (`derives_write`, by induction on the value).
  So the reader gives it back, whatever the indentation (`isDocument_line`).

  The octets of a stored document are UTF-8 with one line end behind the last brace. From
  them the pack format and the description come back as they were, and the function with
  its namespace (`documents_read_back`), however odd the characters in them.
-/

namespace Datapack

namespace Text.Json

/-! ## Texts -/

theorem hexValue?_hexDigit : ∀ n < 16, hexValue? (hexDigit n) = some n := by decide

/-- A character stands for itself or is escaped, and an escape stands for the character. -/
theorem escapeChar_cases (c : Char) : (isPlain c = true ∧ escapeChar c = [c]) ∨
    ∃ code, escapeChar c = '\\' :: code ∧ ∀ rest, escape? (code ++ rest) = some (c, rest) := by
  by_cases hshort : c ∈ ['"', '\\', '\x08', '\t', '\n', '\x0c', '\r']
  · right
    simp only [List.mem_cons, List.not_mem_nil, or_false] at hshort
    rcases hshort with rfl | rfl | rfl | rfl | rfl | rfl | rfl <;> exact ⟨_, rfl, fun _ => rfl⟩
  simp only [List.mem_cons, List.not_mem_nil, or_false, not_or] at hshort
  obtain ⟨h₁, h₂, h₃, h₄, h₅, h₆, h₇⟩ := hshort
  unfold escapeChar
  rw [if_neg h₁, if_neg h₂, if_neg h₃, if_neg h₄, if_neg h₅, if_neg h₆, if_neg h₇]
  split
  · rename_i hlow
    right
    refine ⟨_, rfl, fun rest => ?_⟩
    -- Two digits of four are zero, and the other two make the code of the character.
    have hhigh := hexValue?_hexDigit (c.toNat / 16) (by omega)
    have hdigit : hexDigit c.toNat = hexDigit (c.toNat % 16) := by
      unfold hexDigit
      rw [Nat.mod_mod]
    have hmod := hexValue?_hexDigit (c.toNat % 16) (by omega)
    have hzero : hexValue? '0' = some 0 := rfl
    have hunit : unit? ('0' :: '0' :: hexDigit (c.toNat / 16) :: hexDigit c.toNat :: rest) =
        some (c.toNat, rest) := by
      have hsum : ((0 * 16 + 0) * 16 + c.toNat / 16) * 16 + c.toNat % 16 = c.toNat := by omega
      simp only [unit?, hdigit, hzero, hhigh, hmod, Option.bind_eq_bind, Option.bind_some, hsum]
    have hhalf : (decide (c.toNat < 0xD800) || decide (0xE000 ≤ c.toNat)) = true := by
      rw [decide_eq_true (by omega), Bool.true_or]
    simp only [List.cons_append, List.nil_append, escape?, if_true, hunit, hhalf, Char.ofNat_toNat]
  · rename_i hlow
    left
    refine ⟨?_, rfl⟩
    simp only [isPlain, Bool.and_eq_true, decide_eq_true_eq]
    exact ⟨⟨h₁, h₂⟩, Nat.le_of_not_lt hlow⟩

theorem chars_escaped (s rest : List Char) : Chars (s.flatMap escapeChar ++ '"' :: rest) s rest := by
  induction s with
  | nil => exact .close rest
  | cons c s ih =>
    rw [List.flatMap_cons, List.append_assoc]
    rcases escapeChar_cases c with ⟨hplain, he⟩ | ⟨code, he, hcode⟩
    · rw [he]
      exact .plain hplain ih
    · rw [he]
      exact .escaped (hcode _) ih

theorem quote_append (s : String) (rest : List Char) :
    quote s ++ rest = '"' :: (s.toList.flatMap escapeChar ++ '"' :: rest) := by
  simp [quote]

/-! ## Numbers -/

theorem head?_toDigits {n : Nat} (hn : n ≠ 0) : (Nat.toDigits 10 n).head? ≠ some '0' := by
  induction n using Nat.strongRecOn with
  | _ n ih =>
    rw [Nat.toDigits_eq_if (by decide)]
    split
    · rename_i hlt
      have hdigit : ∀ m < 10, m ≠ 0 → m.digitChar ≠ '0' := by decide
      intro h
      exact hdigit n hlt hn (Option.some.inj h)
    · rename_i hge
      have hrest := ih (n / 10) (by omega) (by omega)
      obtain ⟨c, cs, hcs⟩ := List.exists_cons_of_ne_nil (Nat.toDigits_ne_nil (n := n / 10) (b := 10))
      rwa [hcs] at hrest ⊢

theorem isDigit_of_mem_toDigits {n : Nat} {c : Char} (h : c ∈ Nat.toDigits 10 n) :
    c.isDigit = true := Nat.isDigit_of_mem_toDigits (by decide) (by decide) h

/-- The digits of a number are a number. -/
theorem isNumber_toDigits (n : Nat) : isNumber (Nat.toDigits 10 n) = true := by
  have hdigit : ∀ c ∈ Nat.toDigits 10 n, c.isDigit = true := fun _ => isDigit_of_mem_toDigits
  have hsign : (Nat.toDigits 10 n).head? ≠ some '-' := by
    intro h
    exact absurd (hdigit _ (List.mem_of_mem_head? h)) (by decide)
  have hzero : Nat.toDigits 10 n = ['0'] ∨ (Nat.toDigits 10 n).head? ≠ some '0' := by
    by_cases hn : n = 0
    · subst hn
      exact .inl rfl
    · exact .inr (head?_toDigits hn)
  have htake : (Nat.toDigits 10 n).takeWhile Char.isDigit = Nat.toDigits 10 n :=
    List.takeWhile_eq_self_iff.2 hdigit
  have hdrop : (Nat.toDigits 10 n).dropWhile Char.isDigit = [] := List.dropWhile_eq_nil_iff.2 hdigit
  simp only [isNumber, if_neg hsign, htake, hdrop, isExponent, Bool.and_true, Bool.and_eq_true,
    Bool.or_eq_true, decide_eq_true_eq]
  exact ⟨Nat.toDigits_ne_nil, hzero⟩

/-! ## Values -/

mutual

def value : Json → Value
  | .null => .null
  | .nat n => .number (Nat.toDigits 10 n)
  | .text s => .text s
  | .list items => .list (values items)
  | .record fields => .record (fieldValues fields)

def values : List Json → List Value
  | [] => []
  | item :: items => value item :: values items

def fieldValues : List (String × Json) → List (String × Value)
  | [] => []
  | (name, field) :: fields => (name, value field) :: fieldValues fields

end

theorem spaced_newline (spaces : Nat) (cs : List Char) : Spaced (newline spaces ++ cs) cs := by
  refine ⟨newline spaces, fun c hc => ?_, rfl⟩
  rcases List.mem_cons.1 hc with rfl | hc
  · rfl
  · rw [List.eq_of_mem_replicate hc]
    rfl

theorem spaced_space (cs : List Char) : Spaced (' ' :: cs) cs := ⟨[' '], by simp [isSpace], rfl⟩

theorem derives_field {v : Value} {cs rest : List Char} (spaces : Nat) (name : String)
    (h : Derives cs (.value v) rest) :
    Derives (newline spaces ++ (quote name ++ (": ".toList ++ cs))) (.field (name, v)) rest := by
  have hquote : Spaced (newline spaces ++ (quote name ++ (": ".toList ++ cs)))
      ('"' :: (name.toList.flatMap escapeChar ++ '"' :: (": ".toList ++ cs))) := by
    rw [quote_append]
    exact spaced_newline spaces _
  have hfield := Derives.field hquote (chars_escaped name.toList _) (.refl _) (spaced_space cs) h
  rwa [String.ofList_toList] at hfield

mutual

/-- A value is written as a text that begins with it. -/
theorem derives_write (indent depth : Nat) (rest : List Char) : (j : Json) →
    Derives (write indent depth j ++ rest) (.value j.value) rest
  | .null => by
    rw [write, value]
    exact .literal List.mem_cons_self rest
  | .nat n => by
    rw [write, Nat.toString_eq_repr, Nat.toList_repr, value]
    exact .number (isNumber_toDigits n) rest
  | .text s => by
    have htext := Derives.text (chars_escaped s.toList rest)
    rw [String.ofList_toList] at htext
    rw [write, quote_append, value]
    exact htext
  | .list [] => .emptyList (.refl _)
  | .list (item :: items) => by
    have hitem := derives_write indent (depth + indent)
      (writeItems indent (depth + indent) items ++ (newline depth ++ ']' :: rest)) item
    have hitems := derives_writeItems indent (depth + indent) depth rest items hitem
    simp only [write, value, List.cons_append, List.append_assoc, List.nil_append]
    exact .list hitems
  | .record [] => .emptyRecord (.refl _)
  | .record ((name, field) :: fields) => by
    have hfield := derives_field (depth + indent) name (derives_write indent (depth + indent)
      (writeFields indent (depth + indent) fields ++ (newline depth ++ '\x7d' :: rest)) field)
    have hfields := derives_writeFields indent (depth + indent) depth rest fields hfield
    simp only [write, value, List.cons_append, List.append_assoc, List.nil_append]
    exact .record hfields

/-- So are the items of a list, the first of which has been written. -/
theorem derives_writeItems (indent depth outer : Nat) (rest : List Char) : (items : List Json) →
    {cs : List Char} → {v : Value} →
    Derives cs (.value v) (writeItems indent depth items ++ (newline outer ++ ']' :: rest)) →
    Derives (newline depth ++ cs) (.items (v :: values items)) rest
  | [], cs, v, h => .lastItem (spaced_newline depth cs) h (spaced_newline outer _)
  | item :: items, cs, v, h => by
    have hitem := derives_write indent depth
      (writeItems indent depth items ++ (newline outer ++ ']' :: rest)) item
    have hitems := derives_writeItems indent depth outer rest items hitem
    simp only [writeItems, List.cons_append, List.append_assoc] at h
    exact .item (spaced_newline depth cs) h (.refl _) hitems

/-- And the fields of a record. -/
theorem derives_writeFields (indent depth outer : Nat) (rest : List Char) :
    (fields : List (String × Json)) → {cs : List Char} → {f : String × Value} →
    Derives cs (.field f) (writeFields indent depth fields ++ (newline outer ++ '\x7d' :: rest)) →
    Derives cs (.fields (f :: fieldValues fields)) rest
  | [], cs, f, h => .lastField h (spaced_newline outer _)
  | (name, field) :: fields, cs, f, h => by
    have hfield := derives_field depth name (derives_write indent depth
      (writeFields indent depth fields ++ (newline outer ++ '\x7d' :: rest)) field)
    have hfields := derives_writeFields indent depth outer rest fields hfield
    simp only [writeFields, List.cons_append, List.append_assoc] at h
    exact .moreFields h (.refl _) hfields

end

/-! ## Documents -/

theorem isDocument_write (indent depth : Nat) (j : Json) {cs : List Char} (h : Spaced cs []) :
    IsDocument (write indent depth j ++ cs) j.value :=
  ⟨_, cs, .refl _, derives_write indent depth cs j, h⟩

/-- With a line end behind it, what is written is a document of that value and no other. -/
theorem isDocument_line (indent : Nat) (j : Json) (w : Value) :
    IsDocument (write indent 0 j ++ ['\n']) w ↔ w = j.value := by
  have hdocument : IsDocument (write indent 0 j ++ ['\n']) j.value :=
    isDocument_write indent 0 j ⟨['\n'], by simp [isSpace], rfl⟩
  constructor
  · intro h
    exact h.unique hdocument
  · intro h
    rwa [h]

/-- Octets that hold a document with the value `v` and no other, and end in one line end. -/
structure Holds (bytes : List UInt8) (v : Value) : Prop where
  wellFormed : Utf8.isWellFormed bytes = true
  lineEnd : ∃ body, bytes = body ++ [0x0A] ∧ body.getLast? ≠ some 0x0A
  document : ∀ w, IsDocument (Utf8.readLossy bytes).toList w ↔ w = v

def decode? (bytes : List UInt8) : Option Value :=
  if Utf8.isWellFormed bytes then read? (Utf8.readLossy bytes).toList else none

theorem Holds.decode? {bytes : List UInt8} {v : Value} (h : Holds bytes v) :
    decode? bytes = some v := by
  unfold Json.decode?
  rw [if_pos h.wellFormed]
  exact read?_iff.2 ((h.document v).2 rfl)

/-- A record is closed by its brace. -/
theorem write_record (indent depth : Nat) (fields : List (String × Json)) :
    ∃ body, write indent depth (.record fields) = body ++ ['\x7d'] := by
  cases fields with
  | nil => exact ⟨['\x7b'], rfl⟩
  | cons f fields =>
    obtain ⟨name, field⟩ := f
    rw [write]
    exact ⟨_, (List.cons_append ..).symm⟩

end Text.Json

open Text Text.Json

/-- A record is stored as a document of it. -/
theorem holds_document (fields : List (String × Json)) :
    Holds (Utf8.octets (document (.record fields))) (Json.record fields).value := by
  have hread := Utf8.readLossy_encode (document (.record fields))
  have htext : (document (.record fields)).toList = write 4 0 (.record fields) ++ ['\n'] := by
    simp [document, render]
  refine ⟨Utf8.isWellFormed_encode _, ?_, ?_⟩
  · obtain ⟨body, hbody⟩ := write_record 4 0 fields
    refine ⟨(body ++ ['\x7d']).flatMap String.utf8EncodeChar, ?_, ?_⟩
    · rw [Utf8.octets_eq, htext, hbody, List.flatMap_append]
      rfl
    · have hbrace : ['\x7d'].flatMap String.utf8EncodeChar = [0x7D] := by decide +kernel
      rw [List.flatMap_append, hbrace, List.getLast?_concat]
      decide
  · intro w
    rw [hread, htext]
    exact isDocument_line 4 _ w

/-! ## What the documents say -/

namespace Text.Json.Value

/-- The value of the one field of a record with this name. -/
def field? (name : String) : Value → Option Value
  | record fields => match fields.filter (·.1 = name) with
    | [(_, v)] => some v
    | _ => none
  | _ => none

def u32? : Value → Option UInt32
  | number digits =>
    if digits.all Char.isDigit && SkeletonOptions.decimal digits < UInt32.size then
      some (UInt32.ofNat (SkeletonOptions.decimal digits))
    else none
  | _ => none

def text? : Value → Option String
  | text s => some s
  | _ => none

def texts? : Value → Option (List String)
  | list items => items.mapM text?
  | _ => none

end Text.Json.Value

def packMeta? (bytes : List UInt8) : Option (UInt32 × String) := do
  let pack ← (← decode? bytes).field? "pack"
  let format ← (← pack.field? "pack_format").u32?
  let description ← (← pack.field? "description").text?
  some (format, description)

def functionTag? (bytes : List UInt8) : Option (List String) := do
  (← (← decode? bytes).field? "values").texts?

theorem decimal_toDigits (n : Nat) : SkeletonOptions.decimal (Nat.toDigits 10 n) = n := by
  have hdigits : SkeletonOptions.decimal (Nat.toDigits 10 n) =
      Nat.ofDigitChars 10 (Nat.toDigits 10 n) 0 := by
    simp only [SkeletonOptions.decimal, Nat.ofDigitChars, Nat.mul_comm]
  exact hdigits.trans (Nat.ofDigitChars_toDigits (by decide) (by decide))

theorem u32?_toDigits (n : UInt32) : (Value.number (Nat.toDigits 10 n.toNat)).u32? = some n := by
  have hall : (Nat.toDigits 10 n.toNat).all Char.isDigit = true :=
    List.all_eq_true.2 fun _ => isDigit_of_mem_toDigits
  have hlt : n.toNat < UInt32.size := n.toNat_lt
  simp only [Value.u32?, decimal_toDigits, hall, hlt, decide_true, Bool.and_true, if_true,
    UInt32.ofNat_toNat]

theorem packMeta?_document (format : UInt32) (description : String) :
    packMeta? (Utf8.octets (document (packMeta format description))) = some (format, description) := by
  have hdecode : decode? (Utf8.octets (document (packMeta format description))) =
      some (packMeta format description).value := (holds_document _).decode?
  unfold packMeta?
  rw [hdecode]
  simp [packMeta, value, fieldValues, Value.field?, Value.text?, u32?_toDigits]

theorem functionTag?_document (ns function : String) :
    functionTag? (Utf8.octets (document (functionTag ns function))) = some [ns ++ ":" ++ function] := by
  have hdecode : decode? (Utf8.octets (document (functionTag ns function))) =
      some (functionTag ns function).value := (holds_document _).decode?
  unfold functionTag?
  rw [hdecode]
  simp [functionTag, value, values, fieldValues, Value.field?, Value.texts?, Value.text?]

/-- Whatever a datapack is to say of itself, its documents say: as octets they are UTF-8 that
ends in one line end, they are JSON with one value, and reading them gives back what was
written into them. -/
theorem documents_read_back (format : UInt32) (description ns function : String) :
    ((∃ v, Holds (Utf8.octets (document (packMeta format description))) v) ∧
      packMeta? (Utf8.octets (document (packMeta format description))) = some (format, description)) ∧
    (∃ v, Holds (Utf8.octets (document (functionTag ns function))) v) ∧
      functionTag? (Utf8.octets (document (functionTag ns function))) =
        some [ns ++ ":" ++ function] :=
  ⟨⟨⟨_, holds_document _⟩, packMeta?_document format description⟩,
    ⟨_, holds_document _⟩, functionTag?_document ns function⟩

end Datapack
