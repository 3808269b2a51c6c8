/-
Which events reach the log. A filter is a list of directives, each with the beginning of a target, a scope and the least
important level that passes. Of the directives that cover an event, the one with the longest target decides, and among
those with the same target the one with the narrowest scope; an event that none covers is dropped.

A filter is written as a list with commas: `level` for every target, or `target=level`. After the target there may be a
scope in brackets, `target[{field}]=level`. A level is a word or a number.
-/
import CbcFile.Event

namespace CbcFile

/-- which of the events with its target a directive covers -/
inductive Scope where
  | all
  /-- those that carry something of this name -/
  | having (field : String)
  /-- those inside a span with a certain name or value; no event here is inside a span -/
  | inSpan
deriving DecidableEq, Repr

namespace Scope

/-- the event is in the scope -/
def covers : Scope → Event → Bool
  | .all, _ => true
  | .having field, event => field ∈ event.fieldNames
  | .inSpan, _ => false

/-- the first of two scopes goes before the second; of two names the later one in the alphabet does -/
def narrower : Scope → Scope → Bool
  | .having a, .having b => b < a
  | .having _, .all => true
  | _, _ => false

end Scope

/-- what passes for targets that begin so; no level means nothing -/
structure Directive where
  target : String
  scope : Scope
  most : Option Level
deriving DecidableEq, Repr

/-- directives that differ in target or scope -/
abbrev LogFilter := List Directive

namespace Directive

/-- it speaks of this event -/
def covers (directive : Directive) (event : Event) : Bool :=
  directive.target.toList.isPrefixOf event.target.toList ∧ directive.scope.covers event

/-- it lets events of this level pass -/
def passes (directive : Directive) (level : Level) : Bool :=
  match directive.most with
  | none => false
  | some most => level.rank ≤ most.rank

/-- it goes before the other one where both cover an event -/
def outranks (directive other : Directive) : Bool :=
  other.target.length < directive.target.length ∨
    (other.target.length = directive.target.length ∧ directive.scope.narrower other.scope)

end Directive

namespace LogFilter

/-- the filter that lets everything of this level or more important pass -/
def upTo (level : Level) : LogFilter :=
  [⟨"", .all, some level⟩]

/-- the one of two directives that goes before the other -/
def stronger (a b : Directive) : Directive :=
  if b.outranks a then b else a

/-- the directive that decides about an event -/
def deciding? (filter : LogFilter) (event : Event) : Option Directive :=
  match filter.filter fun directive => directive.covers event with
  | [] => none
  | first :: rest => some (rest.foldl stronger first)

/-- the event passes -/
def allows (filter : LogFilter) (event : Event) : Bool :=
  match filter.deciding? event with
  | none => false
  | some directive => directive.passes event.level

/-! ## The written form -/

/-- adds a directive, in the place of one for the same target and scope -/
def add (filter : LogFilter) (directive : Directive) : LogFilter :=
  (filter.filter fun other => other.target ≠ directive.target ∨ other.scope ≠ directive.scope) ++ [directive]

/-- a number in decimal digits; a plus sign and zeros may stand in front -/
def number? (word : String) : Option Nat :=
  let digits := match word.toList with
    | '+' :: rest => rest
    | all => all
  if digits ≠ [] ∧ digits.all Char.isDigit then some (digits.foldl (fun n d => 10 * n + (d.toNat - '0'.toNat)) 0)
  else none

/-- a level's word in any case, or its number; `off` and zero mean nothing passes -/
def level? (word : String) : Option (Option Level) :=
  let lower := word.toLower
  if lower = "off" ∨ number? word = some 0 then some none
  else (Level.all.find? fun level => lower = level.word.toLower ∨ number? word = some level.rank).map some

/-- white space of any script -/
def space (c : Char) : Bool :=
  c = ' ' ∨ ('\t' ≤ c ∧ c ≤ '\r') ∨ c = '\u0085' ∨ c = '\u00a0' ∨ c = '\u1680' ∨ ('\u2000' ≤ c ∧ c ≤ '\u200a') ∨
    c = '\u2028' ∨ c = '\u2029' ∨ c = '\u202f' ∨ c = '\u205f' ∨ c = '\u3000'

/-- a character that a directive may begin with: a bracket, a letter, a digit, one beyond ASCII, or one of three signs -/
def begins (c : Char) : Bool :=
  c = '[' ∨ c.isAlphanum ∨ '\x7f' < c ∨ c = '-' ∨ c = ':' ∨ c = '_'

/-- what follows an opening bracket: the scope, and the text after the closing one -/
def bracketed? (text : List Char) : Option (Scope × List Char) :=
  match text.span fun c => c ≠ ']' ∧ c ≠ '\x7b' with
  | (name, first :: more) =>
    if first = ']' then some (.inSpan, more)
    else
      match more.span fun c => c ≠ '\x7d' with
      | (field, '\x7d' :: ']' :: rest) =>
        if field = [] then none
        else if name = [] ∧ '=' ∉ field then some (.having (String.ofList field), rest)
        else some (.inSpan, rest)
      | _ => none
  | _ => none

/-- the level at the end of a directive: everything passes if none is written, and none may be written after a
directive that is indented -/
def ending? (indented : Bool) : List Char → Option (Option Level)
  | '=' :: word =>
    if indented then none else if word = [] then some (some .trace) else level? (String.ofList word)
  | rest => if rest.all space then some (some .trace) else none

/-- one directive; a word that is no level is a target, all of whose events pass. White space in front is part of the
target -/
def directive? (piece : String) : Option Directive :=
  let text := piece.toList
  let body := text.dropWhile space
  let indented : Bool := body ≠ text
  let (target, rest) := text.span fun c => c ≠ '=' ∧ c ≠ '['
  if ¬ (body.head?.any begins) then none
  else match rest with
    | [] =>
      match level? piece with
      | some most => some ⟨"", .all, most⟩
      | none => some ⟨piece, .all, some .trace⟩
    | '[' :: inner =>
      match bracketed? inner with
      | none => none
      | some (scope, rest) => (ending? indented rest).map fun most => ⟨String.ofList target, scope, most⟩
    | rest => (ending? indented rest).map fun most => ⟨String.ofList target, .all, most⟩

/-- a written filter; one without directives lets errors pass -/
def parse? (text : String) : Option LogFilter :=
  match (text.splitOn ",").filter (· ≠ "") with
  | [] => some (upTo .error)
  | pieces => (pieces.mapM directive?).map fun directives => directives.foldl add []

end LogFilter

end CbcFile
