/-
Requests for help and for the version. The walk over the arguments goes from left to right, and such a request ends it at
once; what concerns all arguments together is looked at after the walk and so never comes before it. Hence all that can
forestall a request is a fault in the arguments before it, and nothing behind it counts.

- `Asks`: an argument is a request, in full or as a letter of a group;
- `Flawless`: arguments with no fault that the walk could stop at; they may still lack a file or give both flags;
- `walk_append`: the walk over arguments is that over the first of them, then that over the others;
- `take_asks`: a request ends the walk behind flawless arguments.

Result:
- `requests_come_first`: the program answers a request behind flawless arguments, whatever stands behind it. After the
  first `--` there are no requests.
-/
import Mathlib.Tactic
import CbcFile.Proofs.Grammar
import CbcFile.Proofs.Reporting

namespace CbcFile

/-! ## Requests -/

/-- an argument that asks for help or for the version, with the flags that its letters give before they ask -/
inductive Asks : Bytes → List Flag → Halt → Prop
  | help : Asks (ascii ['-', '-', 'h', 'e', 'l', 'p']) [] .help
  | version : Asks (ascii ['-', '-', 'v', 'e', 'r', 's', 'i', 'o', 'n']) [] .version
  | helpLetter {letters : Bytes} (known : ∀ b ∈ letters, b = 'q'.toUInt8 ∨ b = 'v'.toUInt8) (behind : Bytes) :
      Asks ('-'.toUInt8 :: (letters ++ 'h'.toUInt8 :: behind)) (letters.map lettered) .help
  | versionLetter {letters : Bytes} (known : ∀ b ∈ letters, b = 'q'.toUInt8 ∨ b = 'v'.toUInt8) (behind : Bytes) :
      Asks ('-'.toUInt8 :: (letters ++ 'V'.toUInt8 :: behind)) (letters.map lettered) .version

/-- arguments that spell each flag at most once and at most one file, which has a name -/
structure Flawless (arguments : List Bytes) (flags : List Flag) (files : List Bytes) : Prop where
  undashed : ascii ['-', '-'] ∉ arguments
  spells : Spells arguments flags files
  once : flags.Nodup
  single : files.length ≤ 1
  named : [] ∉ files

namespace Seen

/-! ## The walk in two parts -/

/-- **The walk over arguments one after the other**, as long as none of the first is `--` -/
theorem walk_append (seen : Seen) {before : List Bytes} (hdashes : ascii ['-', '-'] ∉ before) (rest : List Bytes) :
    seen.walk (before ++ rest) = (seen.walk before).bind fun next => next.walk rest := by
  induction before generalizing seen with
  | nil => rfl
  | cons argument others ih =>
    have hargument : ¬ argument = [dash, dash] := fun hc => hdashes (hc ▸ List.mem_cons_self)
    have hothers : ascii ['-', '-'] ∉ others := fun hc => hdashes (List.mem_cons_of_mem argument hc)
    rw [List.cons_append, walk, walk, if_neg hargument, if_neg hargument]
    cases seen.take argument with
    | error halt => rfl
    | ok next => exact ih next hothers

/-- flawless arguments bring the walk to what they spell, and leave room for flags that come for the first time -/
theorem walk_flawless {before : List Bytes} {flags more : List Flag} {files : List Bytes}
    (h : Flawless before flags files) (hmore : (flags ++ more).Nodup) :
    ∃ between next, nothing.walk before = .ok between ∧ between.Gains more [] next ∧ next.file ≠ some [] := by
  let next : Seen := ⟨flags ++ more, files.head?⟩
  have hfiles : files.head?.toList = files := by
    match files, h.single with
    | [], _ => rfl
    | [file], _ => rfl
  have hgains : nothing.Gains (flags ++ more) (files ++ []) next :=
    ⟨rfl, by rw [List.append_nil]; exact hfiles, hmore, fun flag _ => List.not_mem_nil⟩
  have hnamed : next.file ≠ some [] := fun hc => h.named (List.mem_of_head? hc)
  obtain ⟨between, hfirst, hlater, hempty⟩ := hgains.split
  exact ⟨between, next, hfirst.walk h.spells fun hc => hnamed (hempty hc), hlater, hnamed⟩

/-! ## Where the walk ends -/

theorem takeFlag_help {seen : Seen} (h : seen.file ≠ some []) : seen.takeFlag .help = .error .help :=
  if_neg h

theorem takeFlag_version {seen : Seen} (h : seen.file ≠ some []) : seen.takeFlag .version = .error .version :=
  if_neg h

/-- behind letters that are flags comes one that is no dash, so a group begins with a letter in any case -/
theorem exists_letter {letters : Bytes} (hknown : ∀ b ∈ letters, b = 'q'.toUInt8 ∨ b = 'v'.toUInt8) {c : UInt8}
    (hc : c ≠ dash) (behind : Bytes) : ∃ first rest, letters ++ c :: behind = first :: rest ∧ first ≠ dash := by
  match letters, hknown with
  | [], _ => exact ⟨c, behind, rfl, hc⟩
  | b :: others, hknown =>
    refine ⟨b, others ++ c :: behind, rfl, ?_⟩
    rcases hknown b List.mem_cons_self with rfl | rfl <;> decide

theorem take_group (seen : Seen) {letters : Bytes} (hknown : ∀ b ∈ letters, b = 'q'.toUInt8 ∨ b = 'v'.toUInt8)
    {c : UInt8} (hc : c ≠ dash) (behind : Bytes) :
    seen.take ('-'.toUInt8 :: (letters ++ c :: behind)) = seen.takeGroup (letters ++ c :: behind) := by
  obtain ⟨first, rest, hgroup, hfirst⟩ := exists_letter hknown hc behind
  have hdash : ¬ '-'.toUInt8 ≠ dash := not_not.2 rfl
  rw [hgroup, take, if_neg hdash, if_neg hfirst]

/-- **A request ends the walk**, unless a file without a name has come before it or its letters repeat a flag -/
theorem take_asks {seen next : Seen} {item : Bytes} {flags : List Flag} {halt : Halt} (hasks : Asks item flags halt)
    (h : seen.Gains flags [] next) (hfile : next.file ≠ some []) : seen.take item = .error halt := by
  cases hasks with
  | help => exact takeFlag_help (h.eq_of_nil ▸ hfile)
  | version => exact takeFlag_version (h.eq_of_nil ▸ hfile)
  | helpLetter hknown behind =>
    rw [take_group seen hknown (by decide), h.takeGroup_append hknown hfile, takeGroup_ascii next (by decide)]
    have hletter : next.takeLetter (Char.ofNat 'h'.toUInt8.toNat) = .error .help := takeFlag_help hfile
    rw [hletter]
  | versionLetter hknown behind =>
    rw [take_group seen hknown (by decide), h.takeGroup_append hknown hfile, takeGroup_ascii next (by decide)]
    have hletter : next.takeLetter (Char.ofNat 'V'.toUInt8.toNat) = .error .version := takeFlag_version hfile
    rw [hletter]

/-- files alone ask for nothing -/
theorem takeFiles_error {seen : Seen} {files : List Bytes} {halt : Halt}
    (h : files.foldlM takeFile seen = .error halt) : ∃ fault, halt = .fault fault := by
  induction files generalizing seen with
  | nil => cases h
  | cons file rest ih =>
    rw [List.foldlM_cons] at h
    cases hs : seen.takeFile file with
    | ok next =>
      rw [hs] at h
      exact ih h
    | error cause =>
      rw [hs] at h
      obtain rfl : cause = halt := Except.error.inj h
      unfold takeFile at hs
      split at hs
      · cases hs
      · exact ⟨_, (Except.error.inj hs).symm⟩

/-- nor does the end of the arguments -/
theorem finish_error {seen : Seen} {halt : Halt} (h : seen.finish = .error halt) : ∃ fault, halt = .fault fault := by
  unfold finish at h
  split at h
  · exact ⟨_, (Except.error.inj h).symm⟩
  · exact ⟨_, (Except.error.inj h).symm⟩
  · exact ⟨_, (Except.error.inj h).symm⟩
  · cases h
  · cases h

end Seen

/-! ## The whole command line -/

/-- a command line ends with a request exactly if the walk over its arguments does -/
theorem parse_eq_request {called : Bytes} {arguments : List Bytes} {halt : Halt} (hhalt : ∀ fault, halt ≠ .fault fault) :
    Arguments.parse (called :: arguments) = .error halt ↔ Seen.nothing.walk arguments = .error halt := by
  rw [Arguments.parse, List.tail_cons]
  cases Seen.nothing.walk arguments with
  | error cause =>
    constructor
    · intro h
      rw [Except.error.inj h]
    · intro h
      rw [Except.error.inj h]
  | ok seen =>
    constructor
    · intro h
      obtain ⟨fault, hfault⟩ := Seen.finish_error h
      exact absurd hfault (hhalt fault)
    · intro h
      cases h

/-- **After the first `--`** nothing is a request -/
theorem parse_dashes {called : Bytes} {before after : List Bytes} (hdashes : ascii ['-', '-'] ∉ before) {halt : Halt}
    (hhalt : ∀ fault, halt ≠ .fault fault) :
    Arguments.parse (called :: (before ++ ascii ['-', '-'] :: after)) = .error halt ↔
      Arguments.parse (called :: before) = .error halt := by
  rw [parse_eq_request hhalt, parse_eq_request hhalt, Seen.walk_append _ hdashes]
  cases Seen.nothing.walk before with
  | error cause => exact Iff.rfl
  | ok seen =>
    have hfiles : seen.walk (ascii ['-', '-'] :: after) = after.foldlM Seen.takeFile seen := if_pos rfl
    simp only [Except.bind, hfiles]
    constructor
    · intro h
      obtain ⟨fault, hfault⟩ := Seen.takeFiles_error h
      exact absurd hfault (hhalt fault)
    · intro h
      cases h

theorem Asks.ne_dashes {item : Bytes} {flags : List Flag} {halt : Halt} (h : Asks item flags halt) :
    item ≠ ascii ['-', '-'] := by
  have hgroup : ∀ {letters : Bytes} {c : UInt8} {behind : Bytes}, (∀ b ∈ letters, b = 'q'.toUInt8 ∨ b = 'v'.toUInt8) →
      c ≠ dash → '-'.toUInt8 :: (letters ++ c :: behind) ≠ ascii ['-', '-'] := by
    intro letters c behind hknown hc hdashes
    obtain ⟨first, rest, hletters, hfirst⟩ := Seen.exists_letter hknown hc behind
    have htail : letters ++ c :: behind = [dash] := (List.cons.inj hdashes).2
    rw [hletters] at htail
    exact hfirst (List.cons.inj htail).1
  cases h with
  | help => decide
  | version => decide
  | helpLetter hknown behind => exact hgroup hknown (by decide)
  | versionLetter hknown behind => exact hgroup hknown (by decide)

theorem Asks.ne_fault {item : Bytes} {flags : List Flag} {halt : Halt} (h : Asks item flags halt) :
    ∀ fault, halt ≠ .fault fault := by
  cases h <;> simp

/-- **A request behind flawless arguments** is what the command line ends with -/
theorem parse_asks {called item : Bytes} {before : List Bytes} {flags more : List Flag} {files : List Bytes} {halt : Halt}
    (h : Flawless before flags files) (hasks : Asks item more halt) (hmore : (flags ++ more).Nodup) (after : List Bytes) :
    Arguments.parse (called :: (before ++ item :: after)) = .error halt := by
  obtain ⟨between, next, hwalk, hgains, hnamed⟩ := Seen.walk_flawless h hmore
  have hitem : ¬ item = [dash, dash] := hasks.ne_dashes
  have hend : between.walk (item :: after) = .error halt := by
    rw [Seen.walk, if_neg hitem, Seen.take_asks hasks hgains hnamed]
  rw [parse_eq_request hasks.ne_fault, Seen.walk_append _ h.undashed, hwalk]
  exact hend

theorem parse_flawless_ne {called : Bytes} {before : List Bytes} {flags : List Flag} {files : List Bytes}
    (h : Flawless before flags files) {halt : Halt} (hhalt : ∀ fault, halt ≠ .fault fault) :
    Arguments.parse (called :: before) ≠ .error halt := by
  have honce : (flags ++ []).Nodup := by
    rw [List.append_nil]
    exact h.once
  obtain ⟨between, -, hwalk, -⟩ := Seen.walk_flawless h honce
  rw [ne_eq, parse_eq_request hhalt, hwalk]
  nofun

/-- nothing is printed where nothing is asked for -/
theorem program_stdout {line : List Bytes} (h : ∀ halt, Arguments.parse line = .error halt → ∃ fault, halt = .fault fault)
    (tree : Tree) (setting : Option String) : (program tree setting line).stdout = "" := by
  cases hparse : Arguments.parse line with
  | ok arguments => rw [program_of_parse hparse, Attempt.report_stdout]
  | error halt =>
    obtain ⟨fault, rfl⟩ := h halt hparse
    rw [program_of_halt hparse]
    rfl

/-- **A request for help or for the version comes first.** Let the arguments of a command line begin with some that spell
each flag at most once and at most one file, which has a name; both flags may be among them, and the file may be lacking.
If the next one asks for help or for the version, in full or by a letter behind letters of flags not given before, then
the program prints the help or the version, exits with zero and leaves the tree as it is, whatever stands behind the
letter and behind the argument. If the next one is `--`, nothing behind it is a request and nothing is printed, whatever it
is; and in every command line, what stands behind the first `--` makes no difference to whether help or the version is asked
for. -/
theorem requests_come_first {before : List Bytes} {flags : List Flag} {files : List Bytes} (h : Flawless before flags files)
    (called : Bytes) :
    (∀ item more after, (flags ++ more).Nodup →
      let line := called :: (before ++ item :: after)
      (Asks item more .help → Arguments.parse line = .error .help ∧
        ∀ tree setting, program tree setting line = ⟨0, helpText (calledName line), [], "", tree⟩) ∧
      (Asks item more .version → Arguments.parse line = .error .version ∧
        ∀ tree setting, program tree setting line = ⟨0, versionText, [], "", tree⟩)) ∧
    (∀ after,
      let line := called :: (before ++ ascii ['-', '-'] :: after)
      Arguments.parse line ≠ .error .help ∧ Arguments.parse line ≠ .error .version ∧
        ∀ tree setting, (program tree setting line).stdout = "") ∧
    ∀ others after, ascii ['-', '-'] ∉ others →
      (Arguments.parse (called :: (others ++ ascii ['-', '-'] :: after)) = .error .help ↔
        Arguments.parse (called :: others) = .error .help) ∧
      (Arguments.parse (called :: (others ++ ascii ['-', '-'] :: after)) = .error .version ↔
        Arguments.parse (called :: others) = .error .version) := by
  refine ⟨fun item more after hmore => ?_, fun after => ?_, fun others after hdashes => ?_⟩
  · have hparse : ∀ halt, Asks item more halt → Arguments.parse (called :: (before ++ item :: after)) = .error halt :=
      fun halt hasks => parse_asks h hasks hmore after
    exact ⟨fun hasks => ⟨hparse .help hasks, program_of_halt (hparse .help hasks)⟩,
      fun hasks => ⟨hparse .version hasks, program_of_halt (hparse .version hasks)⟩⟩
  · have hnone : ∀ halt, (∀ fault, halt ≠ .fault fault) →
        Arguments.parse (called :: (before ++ ascii ['-', '-'] :: after)) ≠ .error halt := by
      intro halt hhalt hc
      exact parse_flawless_ne h hhalt ((parse_dashes h.undashed hhalt).1 hc)
    refine ⟨hnone .help (by simp), hnone .version (by simp), program_stdout fun halt hparse => ?_⟩
    by_contra hc
    exact hnone halt (fun fault hfault => hc ⟨fault, hfault⟩) hparse
  · exact ⟨parse_dashes hdashes (by simp), parse_dashes hdashes (by simp)⟩

/-- a flag and a file, then help within a group that gives the other flag first and ends in no text, then nothing that
could be accepted -/
theorem requests_come_first_tangled :
    let before := [ascii ['-', 'v'], ascii ['x', '.', 'a', 'e', 's']]
    let item := ascii ['-', 'q', 'h'] ++ [0xFF]
    let line := ascii ['p'] :: (before ++ item ::
      [ascii ['-', '-', 'n', 'o'], [0xFF], ascii ['-', 'q'], ascii ['-', '-'], ascii ['-', 'V']])
    Flawless before [.verbose] [ascii ['x', '.', 'a', 'e', 's']] ∧ [Flag.verbose, Flag.quiet].Nodup ∧
    Asks item [.quiet] .help ∧ program ⟨[], []⟩ none line = ⟨0, helpText (calledName line), [], "", ⟨[], []⟩⟩ := by
  intro before item line
  have hspells : Spells before [.verbose] [ascii ['x', '.', 'a', 'e', 's']] := by
    have hflag : Spelled (ascii ['-', 'v']) [.verbose] [] :=
      .group (List.cons_ne_nil _ _) (List.forall_mem_singleton.2 (Or.inr rfl))
    have hfile : Spelled (ascii ['x', '.', 'a', 'e', 's']) [] [ascii ['x', '.', 'a', 'e', 's']] := .file (by decide)
    exact .cons hflag (.cons hfile .nil)
  have hflawless : Flawless before [.verbose] [ascii ['x', '.', 'a', 'e', 's']] :=
    ⟨by decide, hspells, by decide, by decide, by decide⟩
  have hmore : [Flag.verbose, Flag.quiet].Nodup := by decide
  have hletters : ∀ b ∈ ascii ['q'], b = 'q'.toUInt8 ∨ b = 'v'.toUInt8 :=
    List.forall_mem_singleton.2 (Or.inl rfl)
  have hasks : Asks item [.quiet] .help := .helpLetter hletters [0xFF]
  obtain ⟨hhelp, -⟩ := (requests_come_first hflawless (ascii ['p'])).1 item [.quiet]
    [ascii ['-', '-', 'n', 'o'], [0xFF], ascii ['-', 'q'], ascii ['-', '-'], ascii ['-', 'V']] hmore
  exact ⟨hflawless, hmore, hasks, (hhelp hasks).2 ⟨[], []⟩ none⟩

end CbcFile
