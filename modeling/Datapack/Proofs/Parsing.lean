import Datapack.Text.Decimal
import Datapack.Text.Json
import Mathlib.Data.List.TakeWhile

/-
  Datapack.Proofs.Parsing — what a JSON document is, and reading one.

  The grammar is that of RFC 8259, told as a relation between a text, the part that it
  begins with, and the rest behind that part (`Derives`); a text in quotes is told with
  what its escapes stand for (`Chars`). A document is one value with blanks around it
  (`IsDocument`). Numbers are kept as they are written.

  The reader goes by the first character. A list and a record are sequences, each element
  up to the comma or the closing bracket behind it. What it reads is derived
  (`derives_of_readValue`), and whatever is derived it reads (`reads_of_derives`), provided
  that a number is not cut short, which nothing that may follow a value does. So the reader
  decides the grammar, and a document has one value (`read?_iff`).
-/

namespace Datapack.Text.Json

inductive Value where
  | null
  | bool (b : Bool)
  | number (digits : List Char)
  | text (s : String)
  | list (items : List Value)
  | record (fields : List (String × Value))

/-! ## The grammar -/

def isSpace (c : Char) : Bool := c = ' ' || c = '\t' || c = '\n' || c = '\r'

/-- What follows the blanks that a text begins with, some of them or all. -/
def Spaced (cs ds : List Char) : Prop := ∃ blanks, (∀ c ∈ blanks, isSpace c = true) ∧ cs = blanks ++ ds

def literals : List (List Char × Value) :=
  [("null".toList, .null), ("true".toList, .bool true), ("false".toList, .bool false)]

def isNumberChar (c : Char) : Bool := c.isDigit || ['-', '+', '.', 'e', 'E'].contains c

/-- Whether the text is a number: digits without a leading zero, with a minus sign in front
or without, and behind them what makes it a fraction and an exponent. -/
def isNumber (cs : List Char) : Bool :=
  let cs := if cs.head? = some '-' then cs.tail else cs
  let whole := cs.takeWhile Char.isDigit
  whole ≠ [] && (whole = ['0'] || whole.head? ≠ some '0') &&
    match cs.dropWhile Char.isDigit with
    | '.' :: rest => rest.head?.any Char.isDigit && isExponent (rest.dropWhile Char.isDigit)
    | rest => isExponent rest

def shortForms : List (Char × Char) :=
  [('"', '"'), ('\\', '\\'), ('/', '/'), ('b', '\x08'), ('f', '\x0c'), ('n', '\n'), ('r', '\r'),
   ('t', '\t')]

def hexValue? (c : Char) : Option Nat :=
  if c.isDigit then some (c.toNat - '0'.toNat)
  else if 'a' ≤ c ∧ c ≤ 'f' then some (c.toNat - 'a'.toNat + 10)
  else if 'A' ≤ c ∧ c ≤ 'F' then some (c.toNat - 'A'.toNat + 10)
  else none

def unit? : List Char → Option (Nat × List Char)
  | a :: b :: c :: d :: rest => do
    let a ← hexValue? a
    let b ← hexValue? b
    let c ← hexValue? c
    let d ← hexValue? d
    some (((a * 16 + b) * 16 + c) * 16 + d, rest)
  | _ => none

/-- The character that an escape stands for, behind its backslash, and what follows it. Two
halves of a pair stand for one character, half a pair for none. -/
def escape? : List Char → Option (Char × List Char)
  | [] => none
  | e :: cs =>
    if e = 'u' then
      match unit? cs with
      | none => none
      | some (u, rest) =>
        if u < 0xD800 || 0xE000 ≤ u then some (Char.ofNat u, rest)
        else if u < 0xDC00 && "\\u".toList.isPrefixOf rest then
          match unit? (rest.drop 2) with
          | none => none
          | some (v, rest) =>
            if 0xDC00 ≤ v && v < 0xE000 then
              some (Char.ofNat (0x10000 + (u - 0xD800) * 0x400 + (v - 0xDC00)), rest)
            else none
        else none
    else (shortForms.lookup e).map fun c => (c, cs)

def isPlain (c : Char) : Bool := c ≠ '"' && c ≠ '\\' && 0x20 ≤ c.toNat

/-- The text `cs` goes on with the characters `s` up to a closing quote, and with `rest`
behind that. -/
inductive Chars : List Char → List Char → List Char → Prop
  | close (rest : List Char) : Chars ('"' :: rest) [] rest
  | plain {c : Char} {cs s rest : List Char} (hc : isPlain c = true) (h : Chars cs s rest) :
      Chars (c :: cs) (c :: s) rest
  | escaped {c : Char} {cs ds s rest : List Char} (he : escape? cs = some (c, ds))
      (h : Chars ds s rest) : Chars ('\\' :: cs) (c :: s) rest

inductive Part where
  | value (v : Value)
  /-- The items of a list up to its closing bracket. -/
  | items (vs : List Value)
  | field (f : String × Value)
  /-- The fields of a record up to its closing brace. -/
  | fields (fs : List (String × Value))

inductive Derives : List Char → Part → List Char → Prop
  | literal {word : List Char} {v : Value} (h : (word, v) ∈ literals) (rest : List Char) :
      Derives (word ++ rest) (.value v) rest
  | number {digits : List Char} (h : isNumber digits = true) (rest : List Char) :
      Derives (digits ++ rest) (.value (.number digits)) rest
  | text {cs s rest : List Char} (h : Chars cs s rest) :
      Derives ('"' :: cs) (.value (.text (String.ofList s))) rest
  | emptyList {cs rest : List Char} (h : Spaced cs (']' :: rest)) :
      Derives ('[' :: cs) (.value (.list [])) rest
  | list {cs rest : List Char} {vs : List Value} (h : Derives cs (.items vs) rest) :
      Derives ('[' :: cs) (.value (.list vs)) rest
  | lastItem {cs ds es rest : List Char} {v : Value} (hs : Spaced cs ds)
      (h : Derives ds (.value v) es) (he : Spaced es (']' :: rest)) : Derives cs (.items [v]) rest
  | item {cs ds es fs rest : List Char} {v : Value} {vs : List Value} (hs : Spaced cs ds)
      (h : Derives ds (.value v) es) (he : Spaced es (',' :: fs))
      (hmore : Derives fs (.items vs) rest) : Derives cs (.items (v :: vs)) rest
  | emptyRecord {cs rest : List Char} (h : Spaced cs ('\x7d' :: rest)) :
      Derives ('\x7b' :: cs) (.value (.record [])) rest
  | record {cs rest : List Char} {fs : List (String × Value)} (h : Derives cs (.fields fs) rest) :
      Derives ('\x7b' :: cs) (.value (.record fs)) rest
  | field {cs ks name ds es fs rest : List Char} {v : Value} (hq : Spaced cs ('"' :: ks))
      (hk : Chars ks name ds) (hc : Spaced ds (':' :: es)) (hs : Spaced es fs)
      (h : Derives fs (.value v) rest) : Derives cs (.field (String.ofList name, v)) rest
  | lastField {cs ds rest : List Char} {f : String × Value} (h : Derives cs (.field f) ds)
      (he : Spaced ds ('\x7d' :: rest)) : Derives cs (.fields [f]) rest
  | moreFields {cs ds es rest : List Char} {f : String × Value} {fs : List (String × Value)}
      (h : Derives cs (.field f) ds) (he : Spaced ds (',' :: es))
      (hmore : Derives es (.fields fs) rest) : Derives cs (.fields (f :: fs)) rest

def IsDocument (cs : List Char) (v : Value) : Prop :=
  ∃ ds es, Spaced cs ds ∧ Derives ds (.value v) es ∧ Spaced es []

example : ["0", "10", "-0.5e+3", "2E9"].all (isNumber ·.toList) := by decide +kernel
example : ["01", "1.", "+1", ".5", "1e", "-"].all (!isNumber ·.toList) := by decide +kernel

/-! ## The reader -/

def skip (cs : List Char) : List Char := cs.dropWhile isSpace

def expect (c : Char) (cs : List Char) : Option (List Char) :=
  match skip cs with
  | [] => none
  | d :: rest => if d = c then some rest else none

def readChars : Nat → List Char → Option (List Char × List Char)
  | 0, _ => none
  | _ + 1, [] => none
  | n + 1, c :: cs =>
    if c = '"' then some ([], cs)
    else if c = '\\' then do
      let (e, ds) ← escape? cs
      let (s, rest) ← readChars n ds
      some (e :: s, rest)
    else if isPlain c then do
      let (s, rest) ← readChars n cs
      some (c :: s, rest)
    else none

def readSequence {α : Type} (close : Char) (element : List Char → Option (α × List Char)) :
    Nat → List Char → Option (List α × List Char)
  | 0, _ => none
  | n + 1, cs => do
    let (a, ds) ← element cs
    match expect ',' ds with
    | some es => do
      let (as, rest) ← readSequence close element n es
      some (a :: as, rest)
    | none => do
      let rest ← expect close ds
      some ([a], rest)

def readField (value : List Char → Option (Value × List Char)) (cs : List Char) :
    Option ((String × Value) × List Char) := do
  let ks ← expect '"' cs
  let (name, ds) ← readChars ks.length ks
  let es ← expect ':' ds
  let (v, rest) ← value (skip es)
  some ((String.ofList name, v), rest)

def readWord (cs : List Char) : Option (Value × List Char) :=
  match literals.find? (·.1.isPrefixOf cs) with
  | some (word, v) => some (v, cs.drop word.length)
  | none =>
    if isNumber (cs.takeWhile isNumberChar) then
      some (.number (cs.takeWhile isNumberChar), cs.dropWhile isNumberChar)
    else none

def readValue : Nat → List Char → Option (Value × List Char)
  | 0, _ => none
  | _ + 1, [] => none
  | n + 1, c :: cs =>
    if c = '"' then do
      let (s, rest) ← readChars cs.length cs
      some (.text (String.ofList s), rest)
    else if c = '[' then
      match expect ']' cs with
      | some rest => some (.list [], rest)
      | none => do
        let (vs, rest) ← readSequence ']' (fun ds => readValue n (skip ds)) cs.length cs
        some (.list vs, rest)
    else if c = '\x7b' then
      match expect '\x7d' cs with
      | some rest => some (.record [], rest)
      | none => do
        let (fs, rest) ← readSequence '\x7d' (readField (readValue n)) cs.length cs
        some (.record fs, rest)
    else readWord (c :: cs)

def read? (cs : List Char) : Option Value := do
  let (v, rest) ← readValue cs.length (skip cs)
  if skip rest = [] then some v else none

/-! ## Blanks -/

namespace Spaced

variable {cs ds : List Char}

theorem refl (cs : List Char) : Spaced cs cs := ⟨[], by simp, rfl⟩

theorem length_le (h : Spaced cs ds) : ds.length ≤ cs.length := by
  obtain ⟨blanks, -, rfl⟩ := h
  rw [List.length_append]
  exact Nat.le_add_left _ _

theorem skip_eq (h : Spaced cs ds) : skip cs = skip ds := by
  obtain ⟨blanks, hb, rfl⟩ := h
  exact List.dropWhile_append_of_pos hb

/-- The blanks end where something else begins. -/
theorem skip_cons {c : Char} (h : Spaced cs (c :: ds)) (hc : isSpace c = false) :
    skip cs = c :: ds := by
  rw [h.skip_eq]
  exact List.dropWhile_cons_of_neg (by simp [hc])

theorem expect_eq {c : Char} (h : Spaced cs (c :: ds)) (hc : isSpace c = false) (d : Char) :
    expect d cs = if c = d then some ds else none := by
  unfold expect
  rw [h.skip_cons hc]

end Spaced

theorem spaced_skip (cs : List Char) : Spaced cs (skip cs) :=
  ⟨cs.takeWhile isSpace, fun _ hc => List.mem_takeWhile_imp hc, List.takeWhile_append_dropWhile.symm⟩

theorem spaced_of_expect {c : Char} {cs rest : List Char} (h : expect c cs = some rest) :
    Spaced cs (c :: rest) := by
  have hs := spaced_skip cs
  unfold expect at h
  split at h
  · cases h
  · rename_i d ds hskip
    split at h
    · rename_i hd
      cases h
      rwa [hskip, hd] at hs
    · cases h

/-! ## Texts in quotes -/

theorem length_of_unit? {cs ds : List Char} {u : Nat} (h : unit? cs = some (u, ds)) :
    ds.length < cs.length := by
  unfold unit? at h
  split at h
  · simp only [Option.bind_eq_bind, Option.bind_eq_some_iff, Option.some.injEq, Prod.mk.injEq] at h
    obtain ⟨_, _, _, _, _, _, _, _, _, rfl⟩ := h
    simp only [List.length_cons]
    omega
  · cases h

theorem length_of_escape? {cs ds : List Char} {c : Char} (h : escape? cs = some (c, ds)) :
    ds.length < cs.length := by
  unfold escape? at h
  split at h
  · cases h
  rename_i e cs
  split at h
  · split at h
    · cases h
    rename_i u rest hu
    have hlen := length_of_unit? hu
    split at h
    · obtain ⟨-, rfl⟩ := Prod.mk.inj (Option.some.inj h)
      exact Nat.lt_succ_of_lt hlen
    split at h
    · split at h
      · cases h
      rename_i v rest' hv
      have hlen' := length_of_unit? hv
      rw [List.length_drop] at hlen'
      split at h
      · obtain ⟨-, rfl⟩ := Prod.mk.inj (Option.some.inj h)
        rw [List.length_cons]
        omega
      · cases h
    · cases h
  · obtain ⟨_, _, he⟩ := Option.map_eq_some_iff.1 h
    cases he
    exact Nat.lt_succ_self _

theorem chars_of_readChars {n : Nat} {cs s rest : List Char} (h : readChars n cs = some (s, rest)) :
    Chars cs s rest := by
  induction n generalizing cs s with
  | zero => cases h
  | succ n ih =>
    cases cs with
    | nil => cases h
    | cons c cs =>
      rw [readChars] at h
      split at h
      · rename_i hc
        cases h
        rw [hc]
        exact .close rest
      split at h
      · rename_i hc
        simp only [Option.bind_eq_bind, Option.bind_eq_some_iff, Prod.exists, Option.some.injEq,
          Prod.mk.injEq] at h
        obtain ⟨e, ds, he, s', rest', hr, rfl, rfl⟩ := h
        rw [hc]
        exact .escaped he (ih hr)
      split at h
      · rename_i hc
        simp only [Option.bind_eq_bind, Option.bind_eq_some_iff, Prod.exists, Option.some.injEq,
          Prod.mk.injEq] at h
        obtain ⟨s', rest', hr, rfl, rfl⟩ := h
        exact .plain hc (ih hr)
      · cases h

theorem readChars_of_chars {cs s rest : List Char} (h : Chars cs s rest) :
    ∀ n, cs.length ≤ n → readChars n cs = some (s, rest) := by
  induction h with
  | close rest =>
    intro n hn
    obtain ⟨n, rfl⟩ := Nat.exists_eq_add_of_lt hn
    rw [readChars, if_pos rfl]
  | @plain c cs s rest hc _ ih =>
    intro n hn
    cases n with
    | zero => simp at hn
    | succ n =>
      have hquote : c ≠ '"' ∧ c ≠ '\\' := by
        simp only [isPlain, Bool.and_eq_true, decide_eq_true_eq] at hc
        exact hc.1
      have hs := ih n (Nat.le_of_succ_le_succ hn)
      rw [readChars, if_neg hquote.1, if_neg hquote.2, if_pos hc]
      simp only [hs, Option.bind_eq_bind, Option.bind_some]
  | @escaped c cs ds s rest he _ ih =>
    intro n hn
    cases n with
    | zero => simp at hn
    | succ n =>
      have hlen := length_of_escape? he
      rw [List.length_cons] at hn
      have hs := ih n (by omega)
      rw [readChars, if_neg (by decide), if_pos rfl]
      simp only [he, hs, Option.bind_eq_bind, Option.bind_some]

theorem Chars.length_lt {cs s rest : List Char} (h : Chars cs s rest) : rest.length < cs.length := by
  induction h with
  | close rest => exact Nat.lt_succ_self _
  | plain _ _ ih => exact Nat.lt_succ_of_lt ih
  | escaped he _ ih =>
    have hlen := length_of_escape? he
    rw [List.length_cons]
    omega

/-! ## Numbers -/

theorem isNumberChar_of_isDigit {c : Char} (h : c.isDigit = true) : isNumberChar c = true := by
  unfold isNumberChar
  rw [h, Bool.true_or]

theorem eq_e_of_toLower {c : Char} (h : c.toLower = 'e') : c = 'e' ∨ c = 'E' := by
  unfold Char.toLower at h
  split at h
  · right
    have hval : c.val + 32 = 101 := congrArg Char.val h
    apply Char.ext
    show c.val = 69
    grind
  · exact .inl h

theorem isNumberChar_of_isExponent {cs : List Char} (h : isExponent cs = true) :
    ∀ c ∈ cs, isNumberChar c = true := by
  unfold isExponent at h
  split at h
  · simp
  · rename_i e cs
    simp only [Bool.and_eq_true, decide_eq_true_eq, isDigits, List.all_eq_true] at h
    obtain ⟨he, -, hdigits⟩ := h
    have hdigits : ∀ c ∈ dropSign cs, isNumberChar c = true :=
      fun c hc => isNumberChar_of_isDigit (hdigits c hc)
    have hcs : ∀ c ∈ cs, isNumberChar c = true := by
      unfold dropSign at hdigits
      split at hdigits
      · exact List.forall_mem_cons.2 ⟨by decide, hdigits⟩
      · exact List.forall_mem_cons.2 ⟨by decide, hdigits⟩
      · exact hdigits
    refine List.forall_mem_cons.2 ⟨?_, hcs⟩
    rcases eq_e_of_toLower he with rfl | rfl <;> decide

theorem isNumberChar_of_isNumber {cs : List Char} (h : isNumber cs = true) :
    cs ≠ [] ∧ ∀ c ∈ cs, isNumberChar c = true := by
  obtain ⟨body, hbody, hcs⟩ : ∃ body, (if cs.head? = some '-' then cs.tail else cs) = body ∧
      (cs = body ∨ cs = '-' :: body) := by
    refine ⟨_, rfl, ?_⟩
    split
    · rename_i hsign
      cases cs with
      | nil => cases hsign
      | cons c cs => exact .inr (congrArg (· :: cs) (Option.some.inj hsign))
    · exact .inl rfl
  have hwhole : ∀ c ∈ body.takeWhile Char.isDigit, isNumberChar c = true :=
    fun c hc => isNumberChar_of_isDigit (List.mem_takeWhile_imp hc)
  have htail : body.takeWhile Char.isDigit ≠ [] ∧
      ∀ c ∈ body.dropWhile Char.isDigit, isNumberChar c = true := by
    simp only [isNumber, hbody, Bool.and_eq_true, decide_eq_true_eq] at h
    obtain ⟨⟨hne, -⟩, hrest⟩ := h
    refine ⟨hne, ?_⟩
    split at hrest
    · rename_i rest hdrop
      simp only [Bool.and_eq_true] at hrest
      have hfraction : ∀ c ∈ rest, isNumberChar c = true := by
        rw [← List.takeWhile_append_dropWhile (p := Char.isDigit) (l := rest)]
        refine List.forall_mem_append.2 ⟨?_, isNumberChar_of_isExponent hrest.2⟩
        exact fun c hc => isNumberChar_of_isDigit (List.mem_takeWhile_imp hc)
      rw [hdrop]
      exact List.forall_mem_cons.2 ⟨by decide, hfraction⟩
    · exact isNumberChar_of_isExponent hrest
  have hall : ∀ c ∈ body, isNumberChar c = true := by
    rw [← List.takeWhile_append_dropWhile (p := Char.isDigit) (l := body)]
    exact List.forall_mem_append.2 ⟨hwhole, htail.2⟩
  have hne : body ≠ [] := by
    rintro rfl
    exact htail.1 rfl
  rcases hcs with rfl | rfl
  · exact ⟨hne, hall⟩
  · exact ⟨List.cons_ne_nil _ _, List.forall_mem_cons.2 ⟨by decide, hall⟩⟩

/-- A number ends here: what follows would not go on with it. -/
def Ends (rest : List Char) : Prop := ∀ c ∈ rest.head?, isNumberChar c = false

theorem isNumberChar_of_isSpace {c : Char} (h : isSpace c = true) : isNumberChar c = false := by
  simp only [isSpace, Bool.or_eq_true, decide_eq_true_eq] at h
  rcases h with ((rfl | rfl) | rfl) | rfl <;> decide

/-- Blanks end a number, and so does what comes behind them. -/
theorem ends_of_spaced {cs rest : List Char} (h : Spaced cs rest) (hrest : Ends rest) : Ends cs := by
  obtain ⟨blanks, hb, rfl⟩ := h
  cases blanks with
  | nil => exact hrest
  | cons c blanks =>
    rintro _ ⟨⟩
    exact isNumberChar_of_isSpace (hb c List.mem_cons_self)

/-! ## How parts begin -/

variable {cs rest : List Char} {part : Part}

theorem start_of_literal {word : List Char} {v : Value} (h : (word, v) ∈ literals) :
    ∃ c ds, word = c :: ds ∧ isSpace c = false ∧ c ≠ ']' := by
  simp only [literals, List.mem_cons, Prod.mk.injEq, List.not_mem_nil, or_false] at h
  rcases h with ⟨rfl, -⟩ | ⟨rfl, -⟩ | ⟨rfl, -⟩ <;> exact ⟨_, _, rfl, by decide, by decide⟩

/-- A value begins with a character that is neither a blank nor a closing bracket. -/
theorem start_of_value {v : Value} (h : Derives cs (.value v) rest) :
    ∃ c ds, cs = c :: ds ∧ isSpace c = false ∧ c ≠ ']' := by
  cases h with
  | literal h =>
    obtain ⟨c, ds, rfl, hc, hne⟩ := start_of_literal h
    exact ⟨c, ds ++ rest, rfl, hc, hne⟩
  | @number digits h =>
    obtain ⟨hne, hall⟩ := isNumberChar_of_isNumber h
    obtain ⟨c, ds, rfl⟩ := List.exists_cons_of_ne_nil hne
    have hc := hall c List.mem_cons_self
    refine ⟨c, ds ++ rest, rfl, ?_, ?_⟩
    · rw [Bool.eq_false_iff]
      intro hs
      rw [isNumberChar_of_isSpace hs] at hc
      cases hc
    · rintro rfl
      exact absurd hc (by decide)
  | text | emptyList | list | emptyRecord | record => exact ⟨_, _, rfl, by decide, by decide⟩

theorem Spaced.skip_value {ds : List Char} {v : Value} (hs : Spaced cs ds)
    (h : Derives ds (.value v) rest) : skip cs = ds := by
  obtain ⟨c, es, rfl, hc, -⟩ := start_of_value h
  exact hs.skip_cons hc

/-- What is read is never nothing. -/
theorem Derives.length_lt (h : Derives cs part rest) : rest.length < cs.length := by
  induction h with
  | literal h =>
    obtain ⟨c, ds, rfl, -, -⟩ := start_of_literal h
    simp only [List.cons_append, List.length_cons, List.length_append]
    omega
  | number h =>
    have hne := List.length_pos_iff.2 (isNumberChar_of_isNumber h).1
    rw [List.length_append]
    omega
  | text h => exact Nat.lt_succ_of_lt h.length_lt
  | emptyList h | emptyRecord h =>
    have hle := h.length_le
    simp only [List.length_cons] at hle ⊢
    omega
  | list _ ih | record _ ih => exact Nat.lt_succ_of_lt ih
  | lastItem hs _ he ih =>
    have hle := hs.length_le
    have hle' := he.length_le
    rw [List.length_cons] at hle'
    omega
  | item hs _ he _ ih ih' =>
    have hle := hs.length_le
    have hle' := he.length_le
    rw [List.length_cons] at hle'
    omega
  | field hq hk hc hs _ ih =>
    have hle := hq.length_le
    have hlt := hk.length_lt
    have hle' := hc.length_le
    have hle'' := hs.length_le
    rw [List.length_cons] at hle hle'
    omega
  | lastField _ he ih =>
    have hle := he.length_le
    rw [List.length_cons] at hle
    omega
  | moreFields _ he _ ih ih' =>
    have hle := he.length_le
    rw [List.length_cons] at hle
    omega

/-! ## What is read is derived -/

theorem derives_of_readWord {v : Value} (h : readWord cs = some (v, rest)) :
    Derives cs (.value v) rest := by
  unfold readWord at h
  split at h
  · rename_i word w hfind
    cases h
    have hmem := List.mem_of_find?_eq_some hfind
    have hpre := List.find?_some hfind
    obtain ⟨ds, rfl⟩ := List.isPrefixOf_iff_prefix.1 hpre
    rw [List.drop_left]
    exact .literal hmem ds
  · split at h
    · rename_i hnumber
      cases h
      have happend : cs.takeWhile isNumberChar ++ cs.dropWhile isNumberChar = cs :=
        List.takeWhile_append_dropWhile
      have hd := Derives.number hnumber (cs.dropWhile isNumberChar)
      rwa [happend] at hd
    · cases h

/-- What holds of a sequence of one element, and with one more element in front, holds of
whatever sequence is read. -/
theorem of_readSequence {α : Type} {close : Char} {element : List Char → Option (α × List Char)}
    {P : List Char → List α → List Char → Prop}
    (last : ∀ {cs a ds rest}, element cs = some (a, ds) → Spaced ds (close :: rest) → P cs [a] rest)
    (more : ∀ {cs a ds es as rest}, element cs = some (a, ds) → Spaced ds (',' :: es) →
      P es as rest → P cs (a :: as) rest)
    {n : Nat} {as : List α} (h : readSequence close element n cs = some (as, rest)) :
    P cs as rest := by
  induction n generalizing cs as with
  | zero => cases h
  | succ n ih =>
    simp only [readSequence, Option.bind_eq_bind, Option.bind_eq_some_iff, Prod.exists] at h
    obtain ⟨a, ds, ha, h⟩ := h
    split at h
    · rename_i es he
      simp only [Option.bind_eq_some_iff, Prod.exists, Option.some.injEq, Prod.mk.injEq] at h
      obtain ⟨as, rest, hr, rfl, rfl⟩ := h
      exact more ha (spaced_of_expect he) (ih hr)
    · simp only [Option.bind_eq_some_iff, Option.some.injEq, Prod.mk.injEq] at h
      obtain ⟨rest, hr, rfl, rfl⟩ := h
      exact last ha (spaced_of_expect hr)

section Elements

variable {value : List Char → Option (Value × List Char)}
  (hvalue : ∀ {cs v rest}, value cs = some (v, rest) → Derives cs (.value v) rest)

include hvalue

theorem derives_of_readItems {n : Nat} {vs : List Value}
    (h : readSequence ']' (fun ds => value (skip ds)) n cs = some (vs, rest)) :
    Derives cs (.items vs) rest := by
  refine of_readSequence (P := fun cs vs rest => Derives cs (.items vs) rest) ?_ ?_ h
  · exact fun hv he => .lastItem (spaced_skip _) (hvalue hv) he
  · exact fun hv he hmore => .item (spaced_skip _) (hvalue hv) he hmore

theorem derives_of_readField {f : String × Value} (h : readField value cs = some (f, rest)) :
    Derives cs (.field f) rest := by
  simp only [readField, Option.bind_eq_bind, Option.bind_eq_some_iff, Prod.exists,
    Option.some.injEq, Prod.mk.injEq] at h
  obtain ⟨ks, hq, name, ds, hk, es, hc, v, rest, hv, rfl, rfl⟩ := h
  exact .field (spaced_of_expect hq) (chars_of_readChars hk) (spaced_of_expect hc) (spaced_skip es)
    (hvalue hv)

theorem derives_of_readFields {n : Nat} {fs : List (String × Value)}
    (h : readSequence '\x7d' (readField value) n cs = some (fs, rest)) :
    Derives cs (.fields fs) rest := by
  refine of_readSequence (P := fun cs fs rest => Derives cs (.fields fs) rest) ?_ ?_ h
  · exact fun hf he => .lastField (derives_of_readField hvalue hf) he
  · exact fun hf he hmore => .moreFields (derives_of_readField hvalue hf) he hmore

end Elements

theorem derives_of_readValue {n : Nat} {v : Value} (h : readValue n cs = some (v, rest)) :
    Derives cs (.value v) rest := by
  induction n generalizing cs v rest with
  | zero => cases h
  | succ n ih =>
    cases cs with
    | nil => cases h
    | cons c cs =>
      rw [readValue] at h
      split at h
      · rename_i hc
        subst hc
        simp only [Option.bind_eq_bind, Option.bind_eq_some_iff, Prod.exists, Option.some.injEq,
          Prod.mk.injEq] at h
        obtain ⟨s, rest, hr, rfl, rfl⟩ := h
        exact .text (chars_of_readChars hr)
      split at h
      · rename_i hc
        subst hc
        split at h
        · rename_i he
          cases h
          exact .emptyList (spaced_of_expect he)
        · simp only [Option.bind_eq_bind, Option.bind_eq_some_iff, Prod.exists, Option.some.injEq,
            Prod.mk.injEq] at h
          obtain ⟨vs, rest, hr, rfl, rfl⟩ := h
          exact .list (derives_of_readItems ih hr)
      split at h
      · rename_i hc
        subst hc
        split at h
        · rename_i he
          cases h
          exact .emptyRecord (spaced_of_expect he)
        · simp only [Option.bind_eq_bind, Option.bind_eq_some_iff, Prod.exists, Option.some.injEq,
            Prod.mk.injEq] at h
          obtain ⟨fs, rest, hr, rfl, rfl⟩ := h
          exact .record (derives_of_readFields ih hr)
      · exact derives_of_readWord h

/-! ## What is derived is read -/

theorem readWord_of_literal {word : List Char} {v : Value} (h : (word, v) ∈ literals)
    (rest : List Char) : readWord (word ++ rest) = some (v, rest) := by
  simp only [literals, List.mem_cons, Prod.mk.injEq, List.not_mem_nil, or_false] at h
  rcases h with ⟨rfl, rfl⟩ | ⟨rfl, rfl⟩ | ⟨rfl, rfl⟩ <;> rfl

theorem readWord_of_number {digits : List Char} (h : isNumber digits = true) (hends : Ends rest) :
    readWord (digits ++ rest) = some (.number digits, rest) := by
  obtain ⟨hne, hall⟩ := isNumberChar_of_isNumber h
  obtain ⟨c, ds, rfl⟩ := List.exists_cons_of_ne_nil hne
  have hliteral : literals.find? (·.1.isPrefixOf (c :: ds ++ rest)) = none := by
    -- No word begins with a character of numbers.
    have hc := hall c List.mem_cons_self
    have hother : ∀ d ∈ ['n', 't', 'f'], d ≠ c := by
      rintro d hd rfl
      simp only [List.mem_cons, List.not_mem_nil, or_false] at hd
      rcases hd with rfl | rfl | rfl <;> exact absurd hc (by decide)
    simp only [List.forall_mem_cons, List.not_mem_nil, false_implies, implies_true, and_true] at hother
    obtain ⟨hn, ht, hf⟩ := hother
    simp [literals, List.isPrefixOf, hn, ht, hf]
  have hrest : rest.takeWhile isNumberChar = [] ∧ rest.dropWhile isNumberChar = rest := by
    cases rest with
    | nil => exact ⟨rfl, rfl⟩
    | cons d rest =>
      have hd : ¬ isNumberChar d = true := by simp [hends d rfl]
      exact ⟨List.takeWhile_cons_of_neg hd, List.dropWhile_cons_of_neg hd⟩
  unfold readWord
  rw [hliteral]
  simp only [List.takeWhile_append_of_pos hall, List.dropWhile_append_of_pos hall, hrest,
    List.append_nil, h, if_true]

/-- What the reader makes of a text that begins with a part. -/
def Reads (cs : List Char) : Part → List Char → Prop
  | .value v, rest => ∀ n, cs.length ≤ n → Ends rest → readValue n cs = some (v, rest)
  | .items vs, rest => ∀ n m, cs.length ≤ n → cs.length ≤ m →
    readSequence ']' (fun ds => readValue n (skip ds)) m cs = some (vs, rest)
  | .field f, rest => ∀ n, cs.length ≤ n → Ends rest →
    readField (readValue n) cs = some (f, rest)
  | .fields fs, rest => ∀ n m, cs.length ≤ n → cs.length ≤ m →
    readSequence '\x7d' (readField (readValue n)) m cs = some (fs, rest)

theorem readSequence_last {α : Type} {close : Char} {element : List Char → Option (α × List Char)}
    {n : Nat} {a : α} {ds : List Char} (hn : n ≠ 0) (ha : element cs = some (a, ds))
    (hd : Spaced ds (close :: rest)) (hc : isSpace close = false) (hcomma : close ≠ ',') :
    readSequence close element n cs = some ([a], rest) := by
  obtain ⟨n, rfl⟩ := Nat.exists_eq_succ_of_ne_zero hn
  simp only [readSequence, ha, Option.bind_eq_bind, Option.bind_some, hd.expect_eq hc, hcomma,
    if_false, if_true]

theorem readSequence_more {α : Type} {close : Char} {element : List Char → Option (α × List Char)}
    {n : Nat} {a : α} {as : List α} {ds es : List Char} (ha : element cs = some (a, ds))
    (hd : Spaced ds (',' :: es)) (hs : readSequence close element n es = some (as, rest)) :
    readSequence close element (n + 1) cs = some (a :: as, rest) := by
  have hcomma : isSpace ',' = false := by decide
  simp only [readSequence, ha, Option.bind_eq_bind, Option.bind_some, hd.expect_eq hcomma, hs,
    if_true]

theorem readValue_word {n : Nat} {c : Char} (hc : c ≠ '"' ∧ c ≠ '[' ∧ c ≠ '\x7b') (cs : List Char) :
    readValue (n + 1) (c :: cs) = readWord (c :: cs) := by
  rw [readValue, if_neg hc.1, if_neg hc.2.1, if_neg hc.2.2]

/-- Where an item begins the list does not end. -/
theorem expect_items {vs : List Value} (h : Derives cs (.items vs) rest) : expect ']' cs = none := by
  have starts : ∀ {ds es : List Char} {v : Value}, Spaced cs ds → Derives ds (.value v) es →
      expect ']' cs = none := by
    intro ds es v hs hv
    obtain ⟨c, ds, rfl, hc, hne⟩ := start_of_value hv
    rw [hs.expect_eq hc, if_neg hne]
  cases h with
  | lastItem hs hv _ => exact starts hs hv
  | item hs hv _ _ => exact starts hs hv

/-- Where a field begins the record does not end. -/
theorem expect_fields {fs : List (String × Value)} (h : Derives cs (.fields fs) rest) :
    expect '\x7d' cs = none := by
  have starts : ∀ {f : String × Value} {ds : List Char}, Derives cs (.field f) ds →
      expect '\x7d' cs = none := by
    intro f ds hf
    cases hf with
    | field hq =>
      rw [hq.expect_eq (by decide), if_neg (by decide)]
  cases h with
  | lastField hf _ => exact starts hf
  | moreFields hf _ _ => exact starts hf

theorem reads_of_derives (h : Derives cs part rest) : Reads cs part rest := by
  -- The induction is on the derivation: each part reads the parts that it is made of, with
  -- fuel for as many characters as they begin with.
  induction h with
  | @literal word v h rest =>
    intro n hn _
    have hread := readWord_of_literal h rest
    simp only [literals, List.mem_cons, Prod.mk.injEq, List.not_mem_nil, or_false] at h
    cases n with
    | zero => rcases h with ⟨rfl, -⟩ | ⟨rfl, -⟩ | ⟨rfl, -⟩ <;> simp at hn
    | succ n =>
      rcases h with ⟨rfl, -⟩ | ⟨rfl, -⟩ | ⟨rfl, -⟩ <;> exact (readValue_word (by decide) _).trans hread
  | @number digits h rest =>
    intro n hn hends
    have hread := readWord_of_number h hends
    obtain ⟨hne, hall⟩ := isNumberChar_of_isNumber h
    obtain ⟨c, ds, rfl⟩ := List.exists_cons_of_ne_nil hne
    have hc := hall c List.mem_cons_self
    cases n with
    | zero => simp at hn
    | succ n =>
      refine (readValue_word ⟨?_, ?_, ?_⟩ _).trans hread <;>
        (rintro rfl; exact absurd hc (by decide))
  | text h =>
    intro n hn _
    cases n with
    | zero => simp at hn
    | succ n =>
      rw [readValue, if_pos rfl, readChars_of_chars h _ (Nat.le_refl _)]
      rfl
  | emptyList h =>
    intro n hn _
    cases n with
    | zero => simp at hn
    | succ n =>
      have he := h.expect_eq (by decide) ']'
      rw [readValue, if_neg (by decide), if_pos rfl, he]
      rfl
  | list h ih =>
    intro n hn _
    cases n with
    | zero => simp at hn
    | succ n =>
      have hitems := ih n _ (Nat.le_of_succ_le_succ hn) (Nat.le_refl _)
      rw [readValue, if_neg (by decide), if_pos rfl, expect_items h]
      simp only [hitems, Option.bind_eq_bind, Option.bind_some]
  | lastItem hs h he ih =>
    intro n m hn hm
    have hlen := h.length_lt
    have hle := hs.length_le
    have hv := ih n (Nat.le_trans hle hn) (ends_of_spaced he (by rintro _ ⟨⟩; decide))
    refine readSequence_last (by omega) ?_ he (by decide) (by decide)
    rw [hs.skip_value h]
    exact hv
  | item hs h he hmore ih ihmore =>
    intro n m hn hm
    have hlen := h.length_lt
    have hle := hs.length_le
    have hle' := he.length_le
    rw [List.length_cons] at hle'
    have hv := ih n (Nat.le_trans hle hn) (ends_of_spaced he (by rintro _ ⟨⟩; decide))
    obtain ⟨m, rfl⟩ : ∃ k, m = k + 1 := ⟨m - 1, by omega⟩
    refine readSequence_more ?_ he (ihmore n m (by omega) (by omega))
    rw [hs.skip_value h]
    exact hv
  | emptyRecord h =>
    intro n hn _
    cases n with
    | zero => simp at hn
    | succ n =>
      have he := h.expect_eq (by decide) '\x7d'
      rw [readValue, if_neg (by decide), if_neg (by decide), if_pos rfl, he]
      rfl
  | record h ih =>
    intro n hn _
    cases n with
    | zero => simp at hn
    | succ n =>
      have hfields := ih n _ (Nat.le_of_succ_le_succ hn) (Nat.le_refl _)
      rw [readValue, if_neg (by decide), if_neg (by decide), if_pos rfl, expect_fields h]
      simp only [hfields, Option.bind_eq_bind, Option.bind_some]
  | @field cs ks name ds es fs rest v hq hk hc hs h ih =>
    intro n hn hends
    have hle := hq.length_le
    have hlt := hk.length_lt
    have hle' := hc.length_le
    have hle'' := hs.length_le
    rw [List.length_cons] at hle hle'
    have hv := ih n (by omega) hends
    have hopen := hq.expect_eq (by decide) '"'
    have hcolon := hc.expect_eq (by decide) ':'
    have hchars := readChars_of_chars hk _ (Nat.le_refl _)
    rw [if_pos rfl] at hopen hcolon
    simp only [readField, hopen, hchars, hcolon, hs.skip_value h, hv, Option.bind_eq_bind,
      Option.bind_some]
  | lastField h he ih =>
    intro n m hn hm
    have hlen := h.length_lt
    have hf := ih n hn (ends_of_spaced he (by rintro _ ⟨⟩; decide))
    exact readSequence_last (by omega) hf he (by decide) (by decide)
  | moreFields h he hmore ih ihmore =>
    intro n m hn hm
    have hlen := h.length_lt
    have hle' := he.length_le
    rw [List.length_cons] at hle'
    have hf := ih n hn (ends_of_spaced he (by rintro _ ⟨⟩; decide))
    obtain ⟨m, rfl⟩ : ∃ k, m = k + 1 := ⟨m - 1, by omega⟩
    exact readSequence_more hf he (ihmore n m (by omega) (by omega))

/-! ## Documents -/

/-- The reader gives the value of a document, and takes nothing else for one. -/
theorem read?_iff {v : Value} : read? cs = some v ↔ IsDocument cs v := by
  constructor
  · intro h
    simp only [read?, Option.bind_eq_bind, Option.bind_eq_some_iff, Prod.exists] at h
    obtain ⟨w, es, hr, h⟩ := h
    split at h
    · rename_i hrest
      cases h
      have hblanks := spaced_skip es
      rw [hrest] at hblanks
      exact ⟨skip cs, es, spaced_skip cs, derives_of_readValue hr, hblanks⟩
    · cases h
  · rintro ⟨ds, es, hs, hd, he⟩
    have hends : Ends es := ends_of_spaced he (by simp [Ends])
    have hread : readValue cs.length ds = some (v, es) := reads_of_derives hd _ hs.length_le hends
    have hrest : skip es = [] := he.skip_eq
    simp only [read?, hs.skip_value hd, hread, Option.bind_eq_bind, Option.bind_some, hrest, if_true]

/-- A document has one value. -/
theorem IsDocument.unique {v w : Value} (h : IsDocument cs v) (h' : IsDocument cs w) : v = w :=
  Option.some.inj ((read?_iff.2 h).symm.trans (read?_iff.2 h'))

example : read? "[1 , \"\\u00e9\\ud83d\\ude00\"]\n".toList =
    some (.list [.number ['1'], .text "é😀"]) := by rfl
example : ["[1,]", "[1 2]", "\"\t\"", "\"\\ud83d\"", "nul"].all fun s => (read? s.toList).isNone := by
  decide +kernel

end Datapack.Text.Json
