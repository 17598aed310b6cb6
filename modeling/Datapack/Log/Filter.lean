import Datapack.Text.Letter
import Datapack.Text.Decimal
import Datapack.Text.Stretches
import Datapack.Pattern
import Datapack.Log.Event

/-
  Datapack.Log.Filter — which events are printed.

  A filter is a list of rules, written with commas between them. A rule is a level alone,
  a target alone, or a target and a level with `=` between; a target may be followed by a
  span in brackets, with names of fields in braces. Behind a name may stand `=` and the
  value that the field is to have, a number or a pattern for its text. A level is a word
  in any case or a number from 0 (off) to 5; a target without a level means everything
  from it.

  The blanks around a rule do not count when its parts are told apart. The parts are then
  cut by position from the text with its blanks, so a rule with a blank in front is read
  off by that blank. Positions count the bytes of the text; a part that would begin or
  end within a character makes the rule malformed.

  An event is judged by the most specific rule that it matches: the longest target that
  its own target starts with, then the most fields. Of two rules for the same target and
  fields the later one holds. Rules that ask for a span are for work that this program
  never marks as such; they let nothing pass. One malformed rule spoils the whole filter.
-/

namespace Datapack.Log

/-- The least weighty level that passes; none lets nothing pass. -/
abbrev Threshold := Option Level

namespace Threshold

def ofRank? : Nat → Option Threshold
  | 0 => some none
  | 1 => some (some .error)
  | 2 => some (some .warn)
  | 3 => some (some .info)
  | 4 => some (some .debug)
  | 5 => some (some .trace)
  | _ => none

def number? (cs : List Char) : Option Nat :=
  let digits := match cs with
    | '+' :: digits => digits
    | digits => digits
  if digits ≠ [] && digits.all Char.isDigit then
    some (digits.foldl (fun v c => v * 10 + (c.toNat - '0'.toNat)) 0)
  else none

def parse? (cs : List Char) : Option Threshold :=
  match (number? cs).bind ofRank? with
  | some t => some t
  | none => match String.ofList (cs.map Char.toLower) with
    | "" => some (some .error)
    | "error" => some (some .error)
    | "warn" => some (some .warn)
    | "info" => some (some .info)
    | "debug" => some (some .debug)
    | "trace" => some (some .trace)
    | "off" => some none
    | _ => none

def passes (t : Threshold) (level : Level) : Bool :=
  match t with
  | none => false
  | some most => level.rank ≤ most.rank

end Threshold

structure Rule where
  threshold : Threshold
  target : Option String
  span : Option String
  /-- The fields, and whether a value is asked for. -/
  fields : List (String × Bool)
  deriving DecidableEq, Repr

/-- Which part of a rule is being read; the numbers are where the part began. -/
inductive RulePart where
  | begin
  | levelOrTarget (start : Nat)
  | span (start : Nat)
  | field (start : Nat)
  | fields
  | target
  | level (start : Nat)
  deriving DecidableEq, Repr

namespace Rule

/-- The text behind the first `bytes` bytes, if a character ends there. -/
def behind : (bytes : Nat) → List Char → Option (List Char)
  | 0, cs => some cs
  | _ + 1, [] => none
  | bytes + 1, c :: cs =>
    if c.utf8Size ≤ bytes + 1 then behind (bytes + 1 - c.utf8Size) cs else none

def upTo : (bytes : Nat) → List Char → Option (List Char)
  | 0, _ => some []
  | _ + 1, [] => none
  | bytes + 1, c :: cs =>
    if c.utf8Size ≤ bytes + 1 then (upTo (bytes + 1 - c.utf8Size) cs).map (c :: ·) else none

def cut (cs : List Char) (start stop : Nat) : Option (List Char) :=
  (behind start cs).bind (upTo (stop - start))

def canBegin (c : Char) : Bool := c = '-' || c = ':' || c = '_' || Text.isAlphanumeric c

def isValue (cs : List Char) : Bool := Text.isDecimal cs || Pattern.isPattern cs

/-- A field in braces. Its value ends before a second `=`. -/
def field? (cs : List Char) : Option (String × Bool) :=
  let name := String.ofList (cs.takeWhile (· ≠ '='))
  match cs, cs.dropWhile (· ≠ '=') with
  | [], _ => none
  | _, [] => some (name, false)
  | _, _ :: rest => if isValue (rest.takeWhile (· ≠ '=')) then some (name, true) else none

def step (cs : List Char) (rule : Rule) (part : RulePart) (i : Nat) (c : Char) :
    Option (Rule × RulePart) :=
  match part with
  | .begin =>
    if c = '[' then some (rule, .span (i + 1))
    else if canBegin c then some (rule, .levelOrTarget i) else none
  | .levelOrTarget start =>
    if c = '=' || c = '[' then
      (cut cs start i).map fun target =>
        ({ rule with target := some (String.ofList target) },
          if c = '=' then .level (i + 1) else .span (i + 1))
    else some (rule, part)
  | .target => if c = '=' then some (rule, .level (i + 1)) else none
  | .span start =>
    if c = ']' then
      (cut cs start i).map fun span => ({ rule with span := some (String.ofList span) }, .target)
    else if c = '\x7b' then
      (cut cs start i).map fun span =>
        ({ rule with span := if span = [] then none else some (String.ofList span) },
          .field (i + 1))
    else some (rule, part)
  | .field start =>
    if c = '\x7d' then ((cut cs start i).bind field?).map fun f =>
      ({ rule with fields := rule.fields ++ [f] }, .fields)
    else some (rule, part)
  | .fields => if c = ']' then some (rule, .target) else none
  | .level _ => some (rule, part)

def read (cs : List Char) : Rule → RulePart → Nat → List Char → Option (Rule × RulePart)
  | rule, part, _, [] => some (rule, part)
  | rule, part, i, c :: rest =>
    match step cs rule part i c with
    | none => none
    | some (rule, part) => read cs rule part (i + c.utf8Size) rest

def finish (cs : List Char) (rule : Rule) : RulePart → Option Rule
  | .levelOrTarget start =>
    (behind start cs).map fun last => match Threshold.parse? last with
      | some t => { rule with threshold := t }
      | none => { rule with target := some (String.ofList last) }
  | .level start =>
    match behind start cs with
    | none => none
    | some [] => some rule
    | some last => (Threshold.parse? last).map fun t => { rule with threshold := t }
  | .target => some rule
  | _ => none

def parse? (text : String) : Option Rule :=
  let cs := text.toList
  match read cs ⟨some .trace, none, none, []⟩ .begin 0 (Text.trim text).toList with
  | none => none
  | some (rule, part) => finish cs rule part

/-- Whether the rule can judge an event: it asks for no span and for no value. -/
def judgesEvents (r : Rule) : Bool := r.span.isNone && r.fields.all (!·.2)

def applies (r : Rule) (e : Event) : Bool :=
  (match r.target with
    | none => true
    | some target => target.toList.isPrefixOf e.part.target.toList) &&
  r.fields.all fun (name, _) => name = "message" || e.fields.any (·.1 = name)

/-- What makes one rule more specific than another, weightiest first. -/
def specificity (r : Rule) : List Nat × List String :=
  let target := r.target.getD ""
  ([if r.target.isSome then 1 + target.utf8ByteSize else 0, r.fields.length],
    target :: r.fields.map (·.1))

def atLeast (a b : Rule) : Bool :=
  match compare a.specificity.1 b.specificity.1 with
  | .lt => false
  | .gt => true
  | .eq => compare a.specificity.2 b.specificity.2 != .lt

end Rule

structure Filter where
  rules : List Rule
  deriving DecidableEq, Repr

namespace Filter

/-- The texts of the rules; between two commas there may be none. -/
def pieces (text : String) : List String :=
  ((Text.stretches ',' text.toList).map String.ofList).filter (· ≠ "")

def parse? (text : String) : Option Filter := ((pieces text).mapM Rule.parse?).map Filter.mk

/-- The more specific of the best rule so far and another, of equals the other. -/
def better (best : Option Rule) (r : Rule) : Option Rule :=
  match best with
  | none => some r
  | some b => if r.atLeast b then some r else some b

/-- The rule that judges an event: the most specific one, of equals the last. -/
def judge? (f : Filter) (e : Event) : Option Rule :=
  (f.rules.filter fun r => r.judgesEvents && r.applies e).foldl better none

def passes (f : Filter) (e : Event) : Bool :=
  match f.judge? e with
  | none => false
  | some r => r.threshold.passes e.level

def warnings : Filter := ⟨[⟨some .warn, none, none, []⟩]⟩

end Filter

end Datapack.Log
