import Datapack.Script.Token

/-
  Datapack.Proofs.Splitting — arguments are cut at blanks outside quotes, and nowhere else.

  Two things are said of a text without a look at how it is read. It is balanced if every
  quote in it is closed again (`Balanced`); any other text comes to a quote that is not
  (`balanced_or_open`). And it is bare once the quotes that open and close are gone, with
  the blanks outside them (`bare`); of a quoted stretch all is kept.

  - Behind balanced text, blanks end an argument: what comes after them is cut as if it
    stood alone (`tokensFrom_balanced`).
  - The arguments of any text, put together again, are the bare text (`flatten_tokensFrom`):
    nothing else is lost, and nothing changes places.
  - Without quotes, no argument is empty or holds a blank (`tokensFrom_plainly`).

  The reader goes through a quoted stretch in one leap, to where its quote comes again or to
  the end (`tokensFrom_quote`). With that, all three are inductions over the text in front.
-/

namespace Datapack.Script

/-! ## Texts and their quotes -/

/-- Text in which every quote is closed. Up to the quote that closes it, a quoted stretch
may hold anything, also quotes of the other kind. -/
inductive Balanced : List Char → Prop
  | nil : Balanced []
  | plain {c : Char} {cs : List Char} : isQuote c = false → Balanced cs → Balanced (c :: cs)
  | quoted {q : Char} {body cs : List Char} : isQuote q = true → q ∉ body → Balanced cs →
      Balanced (q :: (body ++ q :: cs))

/-- The text without the quotes that open and close in it, and without the blanks outside
them. A quote that is not closed reaches to the end. -/
def bare : List Char → List Char
  | [] => []
  | c :: cs =>
    if isQuote c then cs.takeWhile (· ≠ c) ++ bare ((cs.dropWhile (· ≠ c)).drop 1)
    else if Text.isBlank c then bare cs
    else c :: bare cs
termination_by cs => cs.length
decreasing_by
  · have hdrop := (List.dropWhile_suffix (l := cs) (· ≠ c)).length_le
    simp only [List.length_drop, List.length_cons]
    omega
  · simp
  · simp

example : bare "a\"b c\" '\"' d".toList = "ab c\"d".toList := by decide +kernel

/-- A quoted stretch and what is behind it, as a leap to the closing quote finds them. -/
theorem leap_stretch {q : Char} {body : List Char} (hbody : q ∉ body) (cs : List Char) :
    (body ++ q :: cs).takeWhile (· ≠ q) = body ∧
      ((body ++ q :: cs).dropWhile (· ≠ q)).drop 1 = cs := by
  have hall : ∀ c ∈ body, decide (c ≠ q) = true := by
    intro c hc
    exact decide_eq_true fun he => hbody (he ▸ hc)
  rw [List.takeWhile_append_of_pos hall, List.dropWhile_append_of_pos hall]
  simp

/-- Text that is not balanced comes to a quote that is not closed again. -/
theorem balanced_or_open (cs : List Char) :
    Balanced cs ∨ ∃ front q body, cs = front ++ q :: body ∧ Balanced front ∧
      isQuote q = true ∧ q ∉ body := by
  fun_induction bare cs with
  | case1 => exact .inl .nil
  | case2 c cs hq ih =>
    by_cases hmem : c ∈ cs
    · obtain ⟨body, rest, rfl, hbody⟩ := List.eq_append_cons_of_mem hmem
      rw [(leap_stretch hbody rest).2] at ih
      rcases ih with h | ⟨front, q, open_, rfl, hfront, hopen⟩
      · exact .inl (.quoted hq hbody h)
      · exact .inr ⟨c :: (body ++ c :: front), q, open_, by simp, .quoted hq hbody hfront, hopen⟩
    · exact .inr ⟨[], c, cs, rfl, .nil, hq, hmem⟩
  | case3 c cs hq _ ih | case4 c cs hq _ ih =>
    have hq : isQuote c = false := by simpa using hq
    rcases ih with h | ⟨front, q, body, rfl, hfront, hopen⟩
    · exact .inl (.plain hq h)
    · exact .inr ⟨c :: front, q, body, rfl, .plain hq hfront, hopen⟩

/-! ## The reader, one stretch at a time -/

theorem isQuote_of_isBlank {c : Char} (h : Text.isBlank c = true) : isQuote c = false := by
  by_cases hq : isQuote c = true
  · simp only [isQuote, Bool.or_eq_true, decide_eq_true_eq] at hq
    rcases hq with rfl | rfl <;> exact absurd h (by decide)
  · simpa using hq

theorem tokensFrom_char {c : Char} (hb : Text.isBlank c = false) (hq : isQuote c = false)
    (begun : Option (List Char)) (cs : List Char) :
    tokensFrom none begun (c :: cs) = tokensFrom none (some (begun.getD [] ++ [c])) cs := by
  simp [tokensFrom, hb, hq]

/-- Inside quotes, all is kept up to the quote that closes; without one, all there is. -/
theorem tokensFrom_inside (q : Char) (start cs : List Char) :
    tokensFrom (some q) (some start) cs =
      tokensFrom none (some (start ++ cs.takeWhile (· ≠ q))) ((cs.dropWhile (· ≠ q)).drop 1) := by
  induction cs generalizing start with
  | nil => simp [tokensFrom]
  | cons c cs ih =>
    by_cases hc : c = q
    · subst hc
      simp [tokensFrom]
    · simp [tokensFrom, hc, ih]

theorem tokensFrom_quote {q : Char} (hq : isQuote q = true) (begun : Option (List Char))
    (cs : List Char) :
    tokensFrom none begun (q :: cs) =
      tokensFrom none (some (begun.getD [] ++ cs.takeWhile (· ≠ q)))
        ((cs.dropWhile (· ≠ q)).drop 1) := by
  rw [← tokensFrom_inside, tokensFrom, if_pos hq]

/-- A stretch in quotes of a kind that it does not hold is added as it is. -/
theorem tokensFrom_stretch {q : Char} {body : List Char} (hq : isQuote q = true) (hbody : q ∉ body)
    (begun : Option (List Char)) (cs : List Char) :
    tokensFrom none begun (q :: (body ++ q :: cs)) =
      tokensFrom none (some (begun.getD [] ++ body)) cs := by
  obtain ⟨hstretch, hrest⟩ := leap_stretch hbody cs
  rw [tokensFrom_quote hq, hstretch, hrest]

/-! ## Behind balanced text -/

theorem tokensFrom_blanks {w : List Char} (hw : ∀ c ∈ w, Text.isBlank c = true) (t : List Char) :
    tokensFrom none none (w ++ t) = tokensFrom none none t := by
  induction w with
  | nil => rfl
  | cons c w ih =>
    have hc := hw c List.mem_cons_self
    rw [List.cons_append, tokensFrom_blank hc (isQuote_of_isBlank hc),
      ih fun e he => hw e (List.mem_cons_of_mem _ he)]
    rfl

/-- Blanks end what balanced text has begun, and nothing of it reaches beyond them. -/
theorem tokensFrom_balanced {s w : List Char} (hs : Balanced s) (hne : w ≠ [])
    (hw : ∀ c ∈ w, Text.isBlank c = true) (begun : Option (List Char)) (t : List Char) :
    tokensFrom none begun (s ++ (w ++ t)) = tokensFrom none begun s ++ tokensFrom none none t := by
  induction hs generalizing begun with
  | nil =>
    cases w with
    | nil => exact absurd rfl hne
    | cons c w =>
      have hc := hw c List.mem_cons_self
      rw [List.nil_append, List.cons_append, tokensFrom_blank hc (isQuote_of_isBlank hc),
        tokensFrom_blanks fun e he => hw e (List.mem_cons_of_mem _ he), tokensFrom]
  | @plain c cs hq _ ih =>
    by_cases hb : Text.isBlank c = true
    · rw [List.cons_append, tokensFrom_blank hb hq, tokensFrom_blank hb hq, ih, List.append_assoc]
    · have hb : Text.isBlank c = false := by simpa using hb
      rw [List.cons_append, tokensFrom_char hb hq, tokensFrom_char hb hq, ih]
  | quoted hq hbody _ ih =>
    rw [List.cons_append, List.append_assoc, List.cons_append, tokensFrom_stretch hq hbody,
      tokensFrom_stretch hq hbody, ih]

/-! ## What is kept -/

/-- Nothing is lost but quotes that open and close, and blanks outside them. -/
theorem flatten_tokensFrom (begun : Option (List Char)) (cs : List Char) :
    (tokensFrom none begun cs).flatten = begun.getD [] ++ bare cs := by
  fun_induction bare cs generalizing begun with
  | case1 => cases begun <;> simp [tokensFrom]
  | case2 c cs hq ih => rw [tokensFrom_quote hq, ih, Option.getD_some, List.append_assoc]
  | case3 c cs hq hb ih =>
    have hq : isQuote c = false := by simpa using hq
    rw [tokensFrom_blank hb hq, List.flatten_append, ih]
    cases begun <;> simp
  | case4 c cs hq hb ih =>
    have hq : isQuote c = false := by simpa using hq
    have hb : Text.isBlank c = false := by simpa using hb
    rw [tokensFrom_char hb hq, ih]
    simp

structure IsPlain (token : List Char) : Prop where
  nonempty : token ≠ []
  noBlank : ∀ c ∈ token, Text.isBlank c = false

theorem IsPlain.concat {begun : Option (List Char)} (hb : ∀ token ∈ begun, IsPlain token) {c : Char}
    (hc : Text.isBlank c = false) : IsPlain (begun.getD [] ++ [c]) := by
  refine ⟨by simp, fun e he => ?_⟩
  rcases List.mem_append.1 he with he | he
  · cases begun with
    | none => cases he
    | some token => exact (hb token rfl).noBlank e he
  · rw [List.mem_singleton.1 he]
    exact hc

theorem tokensFrom_plainly {cs : List Char} (hcs : ∀ c ∈ cs, isQuote c = false)
    {begun : Option (List Char)} (hbegun : ∀ token ∈ begun, IsPlain token) :
    ∀ token ∈ tokensFrom none begun cs, IsPlain token := by
  induction cs generalizing begun with
  | nil =>
    intro token ht
    exact hbegun token (by simpa [tokensFrom] using ht)
  | cons c cs ih =>
    have hq := hcs c List.mem_cons_self
    have hrest : ∀ e ∈ cs, isQuote e = false := fun e he => hcs e (List.mem_cons_of_mem _ he)
    intro token ht
    by_cases hb : Text.isBlank c = true
    · rw [tokensFrom_blank hb hq, List.mem_append] at ht
      rcases ht with ht | ht
      · exact hbegun token (by simpa using ht)
      · apply ih hrest _ token ht
        intro next hnext
        cases hnext
    · have hb : Text.isBlank c = false := by simpa using hb
      rw [tokensFrom_char hb hq] at ht
      apply ih hrest _ token ht
      intro next hnext
      cases hnext
      exact IsPlain.concat hbegun hb

/-! ## Texts -/

/-- Cutting a text into arguments goes stretch by stretch where no quote is open, and keeps
all but quotes that open and close and the blanks outside them; without quotes, arguments
are what stands between blanks. -/
theorem tokenize_cuts_at_blanks :
    (∀ s w t : String, Balanced s.toList → w ≠ "" → (∀ c ∈ w.toList, Text.isBlank c = true) →
      tokenize (s ++ w ++ t) = tokenize s ++ tokenize t) ∧
    (∀ s : String, String.join (tokenize s) = String.ofList (bare s.toList)) ∧
    ∀ s : String, (∀ c ∈ s.toList, isQuote c = false) → ∀ token ∈ tokenize s,
      token ≠ "" ∧ ∀ c ∈ token.toList, Text.isBlank c = false := by
  refine ⟨?_, ?_, ?_⟩
  · intro s w t hs hne hw
    have hne : w.toList ≠ [] := fun he => hne (String.toList_eq_nil_iff.1 he)
    have h := tokensFrom_balanced hs hne hw none t.toList
    unfold tokenize
    rw [String.toList_append, String.toList_append, List.append_assoc, h, List.map_append]
  · intro s
    have h := flatten_tokensFrom none s.toList
    have hjoin : (String.join (tokenize s)).toList = bare s.toList := by
      rw [String.toList_join, tokenize, List.flatMap_map]
      simpa [List.flatMap_id'] using h
    rw [← hjoin, String.ofList_toList]
  · intro s hs token ht
    obtain ⟨cs, hcs, rfl⟩ := List.mem_map.1 ht
    have hplain := tokensFrom_plainly hs (fun _ h => by cases h) cs hcs
    refine ⟨fun he => hplain.nonempty ?_, by simpa using hplain.noBlank⟩
    simpa using congrArg String.toList he

/-- Quotes glued to text and an empty pair in front; behind, a quote that stays open. -/
theorem tokenize_cuts_at_blanks_glued :
    (Balanced "a\"b c\" ''".toList ∧ ∀ c ∈ " \t".toList, Text.isBlank c = true) ∧
    tokenize ("a\"b c\" ''" ++ " \t" ++ "'open end ") = ["ab c", "", "open end "] ∧
    String.join (tokenize "a\"b c\" ''") = "ab c" ∧
    (∀ c ∈ "x \ty".toList, isQuote c = false) ∧ "x" ∈ tokenize "x \ty" ∧ "x" ≠ "" := by
  have htext : "a\"b c\" ''".toList = 'a' :: '"' :: (['b', ' ', 'c'] ++ '"' :: ' ' :: '\'' ::
      ([] ++ '\'' :: [])) := by decide +kernel
  have hbalanced : Balanced "a\"b c\" ''".toList := by
    rw [htext]
    exact .plain rfl (.quoted rfl (by decide) (.plain rfl (.quoted rfl (by simp) .nil)))
  have hblank : ∀ c ∈ " \t".toList, Text.isBlank c = true := List.all_eq_true.1 (by decide +kernel)
  have hword : "x \ty".toList = ['x', ' ', '\t', 'y'] := by decide +kernel
  have hplain : ∀ c ∈ "x \ty".toList, isQuote c = false := by simp [hword, isQuote]
  have hx : "x" ∈ tokenize "x \ty" := by decide +kernel
  obtain ⟨hcut, hkept, hwords⟩ := tokenize_cuts_at_blanks
  refine ⟨⟨hbalanced, hblank⟩, ?_, ?_, hplain, hx, (hwords _ hplain _ hx).1⟩
  · rw [hcut _ _ _ hbalanced (by decide) hblank]
    decide +kernel
  · rw [hkept]
    decide +kernel

end Datapack.Script
