import Datapack.Script.Line

/-
  Datapack.Proofs.Quoting — directives written down, and read back.

  Any text can be an argument. Quoted character by character, each in quotes of the kind
  that it is not, it is read as one argument whatever it holds, and what touches no blank
  is glued together (`tokensFrom_quoted`). So arguments written with a space between them
  are read back one by one (`tokensFrom_written`).

  A directive is written as the marker, its name and its arguments (`Directive.render`). A
  name holds no blank and the first argument comes behind one, so the line falls apart
  where it was put together (`splitName_written`), and reading it gives the directive
  (`classify_render`). Two directives are not written by what a reader would see in them: a
  message with blanks around it, and a description without a format in front of it
  (`Directive.IsWritable`).
-/

namespace Datapack.Script

/-! ## Writing -/

def quotedChar (c : Char) : List Char := if c = '"' then ['\'', c, '\''] else ['"', c, '"']

/-- An argument in quotes, character by character; an empty one is an empty pair. -/
def quoted (arg : String) : String :=
  if arg = "" then "\"\"" else String.ofList (arg.toList.flatMap quotedChar)

def written (args : List String) : List Char := args.flatMap fun arg => ' ' :: (quoted arg).toList

namespace Directive

/-- The arguments that are given, in order; the message of a `log` is none. -/
def arguments : Directive → List String
  | root | home | close | log _ => []
  | sethome path | clear path => path.toList
  | init ns packFormat description => ns :: (packFormat.toList ++ description.toList)
  | cd path | mkdir path | rmdir path | «open» path | del path => [path]

def behind : Directive → List Char
  | log message => ' ' :: message.toList
  | d => written d.arguments

def render (d : Directive) : String :=
  String.ofList (directiveMarker.toList ++ d.name.toList ++ d.behind)

/-- Whether the directive can be asked for: a message is not empty and has no blanks around
it, and a description comes behind a format. -/
def IsWritable : Directive → Prop
  | log message => message ≠ "" ∧ Text.trim message = message
  | init _ packFormat description => description ≠ none → packFormat ≠ none
  | _ => True

end Directive

/-! ## Arguments -/

theorem tokensFrom_quotedChar (c : Char) (begun : Option (List Char)) (cs : List Char) :
    tokensFrom none begun (quotedChar c ++ cs) =
      tokensFrom none (some (begun.getD [] ++ [c])) cs := by
  unfold quotedChar
  split
  · rename_i hc
    subst hc
    simp [tokensFrom, isQuote]
  · rename_i hc
    simp [tokensFrom, isQuote, hc]

theorem tokensFrom_quotedChars (word start cs : List Char) :
    tokensFrom none (some start) (word.flatMap quotedChar ++ cs) =
      tokensFrom none (some (start ++ word)) cs := by
  induction word generalizing start with
  | nil => rw [List.flatMap_nil, List.nil_append, List.append_nil]
  | cons c word ih =>
    rw [List.flatMap_cons, List.append_assoc, tokensFrom_quotedChar, Option.getD_some, ih,
      List.append_assoc, List.singleton_append]

/-- An argument in quotes is begun and not ended. -/
theorem tokensFrom_quoted (arg : String) (cs : List Char) :
    tokensFrom none none ((quoted arg).toList ++ cs) = tokensFrom none (some arg.toList) cs := by
  unfold quoted
  split
  · rename_i he
    subst he
    simp [tokensFrom, isQuote]
  · rename_i hne
    rw [String.toList_ofList]
    cases hw : arg.toList with
    | nil => exact absurd (String.toList_inj.1 hw) hne
    | cons c word =>
      rw [List.flatMap_cons, List.append_assoc, tokensFrom_quotedChar, tokensFrom_quotedChars]
      rfl

theorem tokensFrom_space (begun : Option (List Char)) (cs : List Char) :
    tokensFrom none begun (' ' :: cs) = begun.toList ++ tokensFrom none none cs :=
  tokensFrom_blank (by decide) (by decide) begun cs

/-- Each space ends the argument before it, and what is written behind it is the next. -/
theorem tokensFrom_written (begun : Option (List Char)) (args : List String) :
    tokensFrom none begun (written args) = begun.toList ++ args.map String.toList := by
  induction args generalizing begun with
  | nil =>
    rw [written, List.flatMap_nil, tokensFrom, List.map_nil, List.append_nil]
  | cons arg args ih =>
    have hcons : written (arg :: args) = ' ' :: ((quoted arg).toList ++ written args) := rfl
    rw [hcons, tokensFrom_space, tokensFrom_quoted, ih]
    rfl

theorem tokenize_written {args : List String} {cs : List Char}
    (h : tokensFrom none none cs = tokensFrom none none (written args)) :
    tokenize (String.ofList cs) = args := by
  unfold tokenize
  rw [String.toList_ofList, h, tokensFrom_written]
  simp [Function.comp_def]

/-- The first space may be left out. -/
theorem tokensFrom_drop_written (args : List String) :
    tokensFrom none none ((written args).drop 1) = tokensFrom none none (written args) := by
  cases args with
  | nil => rfl
  | cons arg args =>
    have hcons : written (arg :: args) = ' ' :: ((quoted arg).toList ++ written args) := rfl
    rw [hcons, List.drop_one, List.tail_cons, tokensFrom_space]
    rfl

theorem toList_intercalate_quoted (args : List String) :
    (" ".intercalate (args.map quoted)).toList = (written args).drop 1 := by
  induction args with
  | nil => rfl
  | cons arg args ih =>
    cases args with
    | nil => simp [written]
    | cons next args =>
      rw [List.map_cons, List.map_cons, String.intercalate_cons_cons, String.toList_append,
        String.toList_append, ← List.map_cons, ih]
      simp [written]

/-! ## Lines -/

/-- A name ends at the first blank, and what is written behind it begins with one. -/
theorem splitName_written {name behind : List Char} (hname : ∀ c ∈ name, Text.isBlank c = false)
    (hbehind : ∀ c, behind.head? = some c → Text.isBlank c = true) :
    splitName (String.ofList (name ++ behind)) =
      (String.ofList name, String.ofList (behind.drop 1)) := by
  have hall : ∀ c ∈ name, (!Text.isBlank c) = true := by
    intro c hc
    rw [hname c hc]
    rfl
  have hstop : behind.takeWhile (!Text.isBlank ·) = [] ∧
      behind.dropWhile (!Text.isBlank ·) = behind := by
    cases behind with
    | nil => exact ⟨rfl, rfl⟩
    | cons c behind =>
      have hc := hbehind c rfl
      simp [hc]
  unfold splitName
  rw [String.toList_ofList, List.takeWhile_append_of_pos hall, List.dropWhile_append_of_pos hall,
    hstop.1, hstop.2, List.append_nil]

/-- The name of a directive has no blank in it. -/
theorem name_plain (d : Directive) : d.name.toList ≠ [] ∧ ∀ c ∈ d.name.toList, Text.isBlank c = false := by
  have hplain : d.name.toList ≠ [] ∧ d.name.toList.all (fun c => !Text.isBlank c) = true := by
    cases d <;> simp only [Directive.name] <;> decide
  exact ⟨hplain.1, fun c hc => by simpa using List.all_eq_true.1 hplain.2 c hc⟩

/-- So the line asks for what the name and the rest are read as. -/
theorem classify_written {name behind : List Char} (hne : name ≠ [])
    (hname : ∀ c ∈ name, Text.isBlank c = false)
    (hbehind : ∀ c, behind.head? = some c → Text.isBlank c = true) {d : Directive}
    (h : Directive.parse (String.ofList name) (String.ofList (behind.drop 1)) = .ok (some d)) :
    classify (String.ofList (directiveMarker.toList ++ name ++ behind)) = .directive d := by
  have hmarked : Text.after? directiveMarker (String.ofList (directiveMarker.toList ++ name ++ behind)) =
      some (String.ofList (name ++ behind)) := by
    unfold Text.after?
    rw [String.toList_ofList, List.append_assoc]
    rfl
  obtain ⟨c, cs, rfl⟩ := List.exists_cons_of_ne_nil hne
  have hc := hname c List.mem_cons_self
  have hbody : Text.trimStart (String.ofList (c :: cs ++ behind)) = String.ofList (c :: cs ++ behind) := by
    unfold Text.trimStart
    rw [String.toList_ofList, List.cons_append, List.dropWhile_cons_of_neg (by simp [hc])]
  have hsome : String.ofList (c :: cs ++ behind) ≠ "" := by
    rw [ne_eq, ← String.toList_inj, String.toList_ofList]
    simp
  have hnot : (directiveMarker.toList ++ c :: cs ++ behind).all Text.isBlank = false := by
    have hfirst : Text.isBlank '#' = false := by decide
    simp [directiveMarker, hfirst]
  unfold classify
  rw [String.toList_ofList, hnot, if_neg (by decide), hmarked]
  simp only [Line.ofMarked]
  rw [hbody, if_neg hsome, splitName_written hname hbehind]
  simp only [h]

namespace Directive

theorem head?_behind (d : Directive) (c : Char) (h : d.behind.head? = some c) : c = ' ' := by
  have spaced : ∀ args : List String, (written args).head? = some c → c = ' ' := by
    intro args ha
    cases args with
    | nil => cases ha
    | cons arg args => exact (Option.some.inj ha).symm
  cases d with
  | log message => exact (Option.some.inj h).symm
  | root | home | close | sethome | clear | init | cd | mkdir | rmdir | «open» | del =>
    exact spaced _ h

/-- The name and the rest of a directive that can be asked for are read as that directive. -/
theorem parse_behind {d : Directive} (h : d.IsWritable) :
    parse d.name (String.ofList (d.behind.drop 1)) = .ok (some d) := by
  have args : ∀ args : List String,
      tokenize (String.ofList ((written args).drop 1)) = args :=
    fun args => tokenize_written (tokensFrom_drop_written args)
  cases d with
  | root | home | close => rfl
  | log message =>
    obtain ⟨hne, htrim⟩ := h
    have hrest : String.ofList ((log message).behind.drop 1) = message := by
      rw [behind, List.drop_one, List.tail_cons, String.ofList_toList]
    rw [hrest]
    simp [parse, name, htrim, hne]
  | sethome path | clear path =>
    simp only [parse, name, behind, arguments, args]
    cases path <;> rfl
  | cd | mkdir | rmdir | «open» | del =>
    simp only [parse, name, behind, arguments, args]
    rfl
  | init ns packFormat description =>
    simp only [parse, name, behind, arguments, args]
    cases packFormat with
    | some format => cases description <;> rfl
    | none =>
      cases description with
      | none => rfl
      | some text => exact absurd rfl (h (by simp))

end Directive

/-- Every directive that can be asked for is read back from the line that asks for it, and
any arguments from their quoted forms with a space between them. -/
theorem classify_render :
    (∀ d : Directive, d.IsWritable → classify d.render = .directive d) ∧
      ∀ args : List String, tokenize (" ".intercalate (args.map quoted)) = args := by
  refine ⟨?_, ?_⟩
  · intro d hd
    obtain ⟨hne, hname⟩ := name_plain d
    have hbehind : ∀ c, d.behind.head? = some c → Text.isBlank c = true := by
      intro c hc
      rw [d.head?_behind c hc]
      decide
    refine classify_written hne hname hbehind ?_
    rw [String.ofList_toList]
    exact Directive.parse_behind hd
  · intro args
    rw [← String.ofList_toList (s := " ".intercalate (args.map quoted)), toList_intercalate_quoted]
    exact tokenize_written (tokensFrom_drop_written args)

/-- An argument with both kinds of quote, one that is empty, and one of blanks. -/
theorem classify_render_init :
    (Directive.init "it's \"x\"" (some "") (some " \n")).IsWritable ∧
    (Directive.init "it's \"x\"" (some "") (some " \n")).render =
      "#> init \"i\"\"t\"\"'\"\"s\"\" \"'\"'\"x\"'\"' \"\" \" \"\"\n\"" ∧
    classify (Directive.init "it's \"x\"" (some "") (some " \n")).render =
      .directive (.init "it's \"x\"" (some "") (some " \n")) := by
  have hd : (Directive.init "it's \"x\"" (some "") (some " \n")).IsWritable := by
    intro _
    simp
  exact ⟨hd, by decide +kernel, classify_render.1 _ hd⟩

end Datapack.Script
