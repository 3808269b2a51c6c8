/-
The grammar of the command line. Before the first `--` an argument spells one flag in full, some flags by their letters,
or a file; after it every argument spells a file (`Spells`). Which flags and files a list of arguments spells is settled
(`Spells.unique`).

The walk over the arguments collects just these, as long as no flag is repeated and no second file is met (`Gains`):
- `take_gains`, `walk_gains`: what the walk accepts is spelled, and what it has seen grows by what is spelled;
- `Gains.take`, `Gains.walk`: what is spelled is accepted, if the file that results has a name.
Both follow the arguments one by one; the second splits what is gained in all into what is gained first and the rest.

Result:
- `parse_accepts_grammar`: a command line is accepted exactly if it spells one file with a name and at most one of the
  two flags, and neither their order nor their grouping counts.
-/
import Mathlib.Tactic
import CbcFile.Program
import CbcFile.Proofs.Text.Utf8

namespace CbcFile

/-! ## What arguments spell -/

/-- the flag of a letter, which is `q` or `v` -/
def lettered (letter : UInt8) : Flag :=
  if letter = 'q'.toUInt8 then .quiet else .verbose

/-- what one argument before the first `--` spells: flags, or a file -/
inductive Spelled : Bytes → List Flag → List Bytes → Prop
  | quiet : Spelled (ascii ['-', '-', 'q', 'u', 'i', 'e', 't']) [.quiet] []
  | verbose : Spelled (ascii ['-', '-', 'v', 'e', 'r', 'b', 'o', 's', 'e']) [.verbose] []
  | group {letters : Bytes} (nonempty : letters ≠ []) (known : ∀ b ∈ letters, b = 'q'.toUInt8 ∨ b = 'v'.toUInt8) :
      Spelled ('-'.toUInt8 :: letters) (letters.map lettered) []
  | file {bytes : Bytes} (plain : bytes.head? ≠ some '-'.toUInt8 ∨ bytes = ascii ['-']) : Spelled bytes [] [bytes]

/-- what a list of arguments spells: flags and files, each in the order of the arguments -/
inductive Spells : List Bytes → List Flag → List Bytes → Prop
  | nil : Spells [] [] []
  | files (files : List Bytes) : Spells (ascii ['-', '-'] :: files) [] files
  | cons {argument : Bytes} {flags moreFlags : List Flag} {files rest moreFiles : List Bytes}
      (first : Spelled argument flags files) (later : Spells rest moreFlags moreFiles) :
      Spells (argument :: rest) (flags ++ moreFlags) (files ++ moreFiles)

/-! ## One meaning -/

/-- the only thing that an argument can spell -/
def meaning (argument : Bytes) : List Flag × List Bytes :=
  if argument.head? ≠ some '-'.toUInt8 ∨ argument = ascii ['-'] then ([], [argument])
  else if argument = ascii ['-', '-', 'q', 'u', 'i', 'e', 't'] then ([.quiet], [])
  else if argument = ascii ['-', '-', 'v', 'e', 'r', 'b', 'o', 's', 'e'] then ([.verbose], [])
  else (argument.tail.map lettered, [])

/-- no letter is a dash, so a group is neither a dash alone nor a flag in full -/
theorem group_ne {letters : Bytes} (hsome : letters ≠ []) (hknown : ∀ b ∈ letters, b = 'q'.toUInt8 ∨ b = 'v'.toUInt8)
    (rest : List Char) : '-'.toUInt8 :: letters ≠ ascii ('-' :: '-' :: rest) ∧ '-'.toUInt8 :: letters ≠ ascii ['-'] := by
  refine ⟨fun h => ?_, fun h => hsome (List.cons.inj h).2⟩
  obtain rfl : letters = ascii ('-' :: rest) := (List.cons.inj h).2
  exact absurd (hknown '-'.toUInt8 List.mem_cons_self) (by decide)

theorem Spelled.eq_meaning {argument : Bytes} {flags : List Flag} {files : List Bytes}
    (h : Spelled argument flags files) : (flags, files) = meaning argument := by
  cases h with
  | quiet => decide
  | verbose => decide
  | @group letters hsome hknown =>
    obtain ⟨hfull, halone⟩ := group_ne hsome hknown ['q', 'u', 'i', 'e', 't']
    obtain ⟨hfull', -⟩ := group_ne hsome hknown ['v', 'e', 'r', 'b', 'o', 's', 'e']
    have hplain : ¬ (('-'.toUInt8 :: letters).head? ≠ some '-'.toUInt8 ∨ '-'.toUInt8 :: letters = ascii ['-']) :=
      not_or.2 ⟨not_not.2 rfl, halone⟩
    rw [meaning, if_neg hplain, if_neg hfull, if_neg hfull', List.tail_cons]
  | file hplain => rw [meaning, if_pos hplain]

theorem Spelled.unique {argument : Bytes} {flags others : List Flag} {files more : List Bytes}
    (h : Spelled argument flags files) (h' : Spelled argument others more) : flags = others ∧ files = more :=
  Prod.mk.inj (h.eq_meaning.trans h'.eq_meaning.symm)

theorem Spelled.ne_dashes {argument : Bytes} {flags : List Flag} {files : List Bytes}
    (h : Spelled argument flags files) : argument ≠ ascii ['-', '-'] := by
  cases h with
  | quiet => decide
  | verbose => decide
  | group hsome hknown => exact (group_ne hsome hknown []).1
  | file hplain =>
    rintro rfl
    exact absurd hplain (by decide)

/-- **What arguments spell is settled** -/
theorem Spells.unique {arguments : List Bytes} {flags others : List Flag} {files more : List Bytes}
    (h : Spells arguments flags files) (h' : Spells arguments others more) : flags = others ∧ files = more := by
  induction h generalizing others more with
  | nil =>
    cases h'
    exact ⟨rfl, rfl⟩
  | files files =>
    cases h' with
    | files => exact ⟨rfl, rfl⟩
    | cons first later => exact absurd rfl first.ne_dashes
  | cons first later ih =>
    cases h' with
    | files => exact absurd rfl first.ne_dashes
    | cons first' later' =>
      obtain ⟨rfl, rfl⟩ := first.unique first'
      obtain ⟨rfl, rfl⟩ := ih later'
      exact ⟨rfl, rfl⟩

/-- quiet and verbose are all that can be spelled -/
theorem Spelled.known {argument : Bytes} {flags : List Flag} {files : List Bytes} (h : Spelled argument flags files) :
    ∀ flag ∈ flags, flag = .quiet ∨ flag = .verbose := by
  cases h with
  | quiet => simp
  | verbose => simp
  | group =>
    intro flag hflag
    obtain ⟨letter, -, rfl⟩ := List.mem_map.1 hflag
    unfold lettered
    split_ifs
    · exact Or.inl rfl
    · exact Or.inr rfl
  | file => simp

theorem Spells.known {arguments : List Bytes} {flags : List Flag} {files : List Bytes}
    (h : Spells arguments flags files) : ∀ flag ∈ flags, flag = .quiet ∨ flag = .verbose := by
  induction h with
  | nil => simp
  | files => simp
  | cons first later ih =>
    intro flag hflag
    rcases List.mem_append.1 hflag with hflag | hflag
    · exact first.known flag hflag
    · exact ih flag hflag

/-! ## What the walk gains -/

namespace Seen

/-- the flags and files by which the next state is ahead: no flag twice, no second file -/
structure Gains (seen : Seen) (flags : List Flag) (files : List Bytes) (next : Seen) : Prop where
  flags_eq : next.flags = seen.flags ++ flags
  file_eq : next.file.toList = seen.file.toList ++ files
  nodup : flags.Nodup
  fresh : ∀ flag ∈ flags, flag ∉ seen.flags

namespace Gains

variable {seen between next : Seen} {flags moreFlags : List Flag} {files moreFiles : List Bytes}

theorem refl (seen : Seen) : seen.Gains [] [] seen :=
  ⟨by simp, by simp, by simp, by simp⟩

theorem file_of_nil (h : seen.Gains flags [] next) : next.file = seen.file := by
  have hfile := congrArg List.head? h.file_eq
  simpa using hfile

theorem eq_of_nil (h : seen.Gains [] [] next) : next = seen := by
  have hflags : next.flags = seen.flags := by rw [h.flags_eq, List.append_nil]
  cases seen
  cases next
  exact congr (congrArg Seen.mk hflags) h.file_of_nil

theorem trans (h : seen.Gains flags files between) (h' : between.Gains moreFlags moreFiles next) :
    seen.Gains (flags ++ moreFlags) (files ++ moreFiles) next := by
  have hfresh : ∀ flag ∈ moreFlags, flag ∉ seen.flags ∧ flag ∉ flags := by
    intro flag hflag
    have hnot := h'.fresh flag hflag
    rw [h.flags_eq, List.mem_append, not_or] at hnot
    exact hnot
  refine ⟨by rw [h'.flags_eq, h.flags_eq, List.append_assoc], by rw [h'.file_eq, h.file_eq, List.append_assoc],
    ?_, ?_⟩
  · refine List.nodup_append.2 ⟨h.nodup, h'.nodup, fun flag hflag other hother => ?_⟩
    rintro rfl
    exact (hfresh flag hother).2 hflag
  · intro flag hflag
    rcases List.mem_append.1 hflag with hflag | hflag
    · exact h.fresh flag hflag
    · exact (hfresh flag hflag).1

/-- what is gained in all is gained first in part; an empty name is not lost again -/
theorem split (h : seen.Gains (flags ++ moreFlags) (files ++ moreFiles) next) :
    ∃ between, seen.Gains flags files between ∧ between.Gains moreFlags moreFiles next ∧
      (between.file = some [] → next.file = some []) := by
  obtain ⟨hflags, hfile, hnodup, hfresh⟩ := h
  obtain ⟨hfirst, hlater, hapart⟩ := List.nodup_append.1 hnodup
  -- there is one file at most in all, so also among those gained first
  have hlen : (seen.file.toList ++ (files ++ moreFiles)).length ≤ 1 := by
    rw [← hfile]
    cases next.file <;> simp
  obtain ⟨file, hbetween⟩ : ∃ file : Option Bytes, file.toList = seen.file.toList ++ files := by
    refine ⟨(seen.file.toList ++ files).head?, ?_⟩
    rw [← List.append_assoc, List.length_append] at hlen
    match hs : seen.file.toList ++ files with
    | [] => rfl
    | [file] => rfl
    | first :: second :: rest =>
      rw [hs, List.length_cons, List.length_cons] at hlen
      omega
  refine ⟨⟨seen.flags ++ flags, file⟩, ⟨rfl, hbetween, hfirst, fun flag hflag => hfresh flag (by simp [hflag])⟩,
    ⟨by rw [hflags, List.append_assoc], by rw [hfile, hbetween, List.append_assoc], hlater, ?_⟩, ?_⟩
  · intro flag hflag hseen
    rcases List.mem_append.1 hseen with hseen | hseen
    · exact hfresh flag (by simp [hflag]) hseen
    · exact hapart flag hseen flag hflag rfl
  · rintro rfl
    rw [← List.append_assoc, ← hbetween] at hlen hfile
    obtain rfl : moreFiles = [] := by simpa using hlen
    simpa using hfile

end Gains

/-! ## One argument -/

section Take

variable {seen next : Seen} {flag : Flag} {letters argument : Bytes} {flags : List Flag} {files : List Bytes}

theorem takeFlag_gains (h : seen.takeFlag flag = .ok next) :
    (flag = .quiet ∨ flag = .verbose) ∧ seen.Gains [flag] [] next := by
  unfold takeFlag at h
  split_ifs at h with hfile
  cases flag with
  | help => cases h
  | version => cases h
  | quiet =>
    simp only at h
    split_ifs at h with hmem
    rw [← Except.ok.inj h]
    exact ⟨Or.inl rfl, rfl, by simp, by simp, by simpa using hmem⟩
  | verbose =>
    simp only at h
    split_ifs at h with hmem
    rw [← Except.ok.inj h]
    exact ⟨Or.inr rfl, rfl, by simp, by simp, by simpa using hmem⟩

theorem Gains.takeFlag (hknown : flag = .quiet ∨ flag = .verbose) (h : seen.Gains [flag] [] next)
    (hfile : next.file ≠ some []) : seen.takeFlag flag = .ok next := by
  have hfresh : flag ∉ seen.flags := h.fresh flag (by simp)
  have hnext : next = { seen with flags := seen.flags ++ [flag] } := by
    rw [← h.flags_eq, ← h.file_of_nil]
  rw [h.file_of_nil] at hfile
  rcases hknown with rfl | rfl <;> simp [Seen.takeFlag, hfile, hfresh, hnext]

theorem takeFile_gains {bytes : Bytes} (h : seen.takeFile bytes = .ok next) : seen.Gains [] [bytes] next := by
  unfold takeFile at h
  cases hfile : seen.file with
  | some file => rw [hfile] at h; cases h
  | none =>
    rw [hfile] at h
    rw [← Except.ok.inj h]
    exact ⟨by simp, by simp [hfile], by simp, by simp⟩

theorem Gains.takeFile {bytes : Bytes} (h : seen.Gains [] [bytes] next) : seen.takeFile bytes = .ok next := by
  have hnone : seen.file = none := by
    have hlen := congrArg List.length h.file_eq
    cases hfile : seen.file with
    | none => rfl
    | some first =>
      rw [hfile] at hlen
      cases hnext : next.file <;> simp [hnext] at hlen
  have hfile : next.file = some bytes := by
    have hhead := congrArg List.head? h.file_eq
    simpa [hnone] using hhead
  have hflags : next.flags = seen.flags := by rw [h.flags_eq, List.append_nil]
  rw [Seen.takeFile, hnone, ← hfile, ← hflags]

/-! ### Letters -/

theorem takeGroup_nil (seen : Seen) : seen.takeGroup [] = .ok seen := rfl

theorem takeGroup_ascii (seen : Seen) {b : UInt8} (hb : b ≤ 0x7F) (rest : Bytes) :
    seen.takeGroup (b :: rest) =
      match seen.takeLetter (Char.ofNat b.toNat) with
      | .error halt => .error halt
      | .ok seen => seen.takeGroup rest := by
  simp only [takeGroup, Utf8.validSpan_ascii hb, List.foldlM_cons]
  cases seen.takeLetter (Char.ofNat b.toNat) with
  | error halt => rfl
  | ok next => rfl

theorem ofLetter?_eq_some {c : Char} {flag : Flag} (h : Flag.ofLetter? c = some flag) : c = flag.letter := by
  have hfound := List.find?_some h
  simp only [decide_eq_true_eq] at hfound
  exact hfound.symm

/-- a byte beyond ASCII begins no group -/
theorem takeGroup_beyond (seen : Seen) {b : UInt8} (hb : 0x7F < b) (rest : Bytes) :
    ∃ fault, seen.takeGroup (b :: rest) = .error (.fault fault) := by
  rcases Utf8.validSpan_beyond hb rest with ⟨c, chars, hspan, hc⟩ | hspan
  · have hnone : Flag.ofLetter? c = none := by
      cases hflag : Flag.ofLetter? c with
      | none => rfl
      | some flag =>
        rw [ofLetter?_eq_some hflag] at hc
        cases flag <;> exact absurd hc (by decide)
    refine ⟨.unknownLetter (Terminal.plain (String.singleton c)), ?_⟩
    rw [takeGroup]
    simp only [hspan, List.foldlM_cons, takeLetter, hnone]
    rfl
  · refine ⟨.unknownLetter (shownPart (b :: rest)), ?_⟩
    rw [takeGroup, hspan]
    exact if_neg (by simp)

theorem takeLetter_gains {b : UInt8} (hb : b ≤ 0x7F) (h : seen.takeLetter (Char.ofNat b.toNat) = .ok next) :
    (b = 'q'.toUInt8 ∨ b = 'v'.toUInt8) ∧ seen.Gains [lettered b] [] next := by
  unfold takeLetter at h
  cases hflag : Flag.ofLetter? (Char.ofNat b.toNat) with
  | none => rw [hflag] at h; cases h
  | some flag =>
    rw [hflag] at h
    obtain ⟨hknown, hgains⟩ := takeFlag_gains h
    have hle : b.toNat ≤ 0x7F := UInt8.le_iff_toNat_le.1 hb
    have hn : b.toNat = flag.letter.toNat := by
      rw [← ofLetter?_eq_some hflag, Utf8.toNat_ofNat_of_beyond (by omega) (by omega)]
    rcases hknown with rfl | rfl
    · obtain rfl : b = 'q'.toUInt8 := UInt8.toNat_inj.1 hn
      exact ⟨Or.inl rfl, hgains⟩
    · obtain rfl : b = 'v'.toUInt8 := UInt8.toNat_inj.1 hn
      exact ⟨Or.inr rfl, hgains⟩

theorem Gains.takeLetter {b : UInt8} (hb : b = 'q'.toUInt8 ∨ b = 'v'.toUInt8) (h : seen.Gains [lettered b] [] next)
    (hfile : next.file ≠ some []) : seen.takeLetter (Char.ofNat b.toNat) = .ok next := by
  rcases hb with rfl | rfl
  · exact Gains.takeFlag (Or.inl rfl) h hfile
  · exact Gains.takeFlag (Or.inr rfl) h hfile

theorem takeGroup_gains (h : seen.takeGroup letters = .ok next) :
    (∀ b ∈ letters, b = 'q'.toUInt8 ∨ b = 'v'.toUInt8) ∧ seen.Gains (letters.map lettered) [] next := by
  induction letters generalizing seen with
  | nil =>
    rw [takeGroup_nil] at h
    rw [← Except.ok.inj h]
    exact ⟨by simp, .refl seen⟩
  | cons b rest ih =>
    by_cases hb : b ≤ 0x7F
    · rw [takeGroup_ascii seen hb] at h
      cases hs : seen.takeLetter (Char.ofNat b.toNat) with
      | error halt => rw [hs] at h; cases h
      | ok between =>
        rw [hs] at h
        obtain ⟨hletter, hfirst⟩ := takeLetter_gains hb hs
        obtain ⟨hrest, hlater⟩ := ih h
        refine ⟨?_, hfirst.trans hlater⟩
        intro letter hmem
        rcases List.mem_cons.1 hmem with rfl | hmem
        · exact hletter
        · exact hrest letter hmem
    · obtain ⟨fault, hfault⟩ := takeGroup_beyond seen (UInt8.not_le.1 hb) rest
      rw [hfault] at h
      cases h

/-- letters that are flags bring the walk to what it gains by them, whatever stands behind them in the group -/
theorem Gains.takeGroup_append (hletters : ∀ b ∈ letters, b = 'q'.toUInt8 ∨ b = 'v'.toUInt8)
    (h : seen.Gains (letters.map lettered) [] next) (hfile : next.file ≠ some []) (behind : Bytes) :
    seen.takeGroup (letters ++ behind) = next.takeGroup behind := by
  induction letters generalizing seen with
  | nil => rw [h.eq_of_nil, List.nil_append]
  | cons b rest ih =>
    have hletter := hletters b List.mem_cons_self
    have hparts : seen.Gains ([lettered b] ++ rest.map lettered) ([] ++ []) next := h
    obtain ⟨between, hfirst, hlater, hempty⟩ := hparts.split
    have hb : b ≤ 0x7F := by rcases hletter with rfl | rfl <;> decide
    rw [List.cons_append, takeGroup_ascii seen hb, hfirst.takeLetter hletter fun hc => hfile (hempty hc)]
    exact ih (fun letter hmem => hletters letter (List.mem_cons_of_mem b hmem)) hlater

theorem Gains.takeGroup (hletters : ∀ b ∈ letters, b = 'q'.toUInt8 ∨ b = 'v'.toUInt8)
    (h : seen.Gains (letters.map lettered) [] next) (hfile : next.file ≠ some []) :
    seen.takeGroup letters = .ok next := by
  have htaken := h.takeGroup_append hletters hfile []
  rwa [List.append_nil, takeGroup_nil] at htaken

/-! ### Flags in full -/

theorem takeLong_gains {text : Bytes} (h : seen.takeLong text = .ok next) :
    ∃ flag, (flag = .quiet ∨ flag = .verbose) ∧ text = flag.longBytes ∧ seen.Gains [flag] [] next := by
  unfold takeLong at h
  simp only at h
  split at h
  · rename_i flag hname htext
    obtain ⟨hknown, hgains⟩ := takeFlag_gains h
    have hlong : flag.longBytes = text.takeWhile (· ≠ equals) := by
      have hfound := List.find?_some hname
      simpa using hfound
    refine ⟨flag, hknown, ?_, hgains⟩
    -- nothing is left of the text after the name
    rw [hlong]
    exact ((List.takeWhile_prefix _).eq_of_length_le (List.drop_eq_nil_iff.1 htext)).symm
  · cases h
  · split at h <;> cases h

theorem takeLong_longBytes (seen : Seen) (hknown : flag = .quiet ∨ flag = .verbose) :
    seen.takeLong flag.longBytes = seen.takeFlag flag := by
  rcases hknown with rfl | rfl <;> rfl

/-! ### Any argument -/

theorem spelled_long (hknown : flag = .quiet ∨ flag = .verbose) : Spelled (dash :: dash :: flag.longBytes) [flag] [] := by
  rcases hknown with rfl | rfl
  · exact .quiet
  · exact .verbose

theorem take_gains (h : seen.take argument = .ok next) :
    ∃ flags files, Spelled argument flags files ∧ seen.Gains flags files next := by
  match argument, h with
  | [], h => exact ⟨[], [[]], .file (Or.inl (by simp)), takeFile_gains h⟩
  | [b], h =>
    refine ⟨[], [[b]], .file ?_, takeFile_gains h⟩
    by_cases hb : b = dash
    · exact Or.inr (by rw [hb]; rfl)
    · exact Or.inl fun hc => hb (Option.some.inj hc)
  | first :: second :: rest, h =>
    simp only [take] at h
    split_ifs at h with hfirst hsecond
    · exact ⟨[], [_], .file (Or.inl fun hc => hfirst (Option.some.inj hc)), takeFile_gains h⟩
    · obtain ⟨flag, hknown, rfl, hgains⟩ := takeLong_gains h
      rw [not_not] at hfirst
      rw [hfirst, hsecond]
      exact ⟨[flag], [], spelled_long hknown, hgains⟩
    · obtain ⟨hletters, hgains⟩ := takeGroup_gains h
      rw [not_not] at hfirst
      rw [hfirst]
      exact ⟨_, [], .group (by simp) hletters, hgains⟩

theorem Gains.take (hspelled : Spelled argument flags files) (h : seen.Gains flags files next)
    (hfile : next.file ≠ some []) : seen.take argument = .ok next := by
  cases hspelled with
  | quiet => exact (takeLong_longBytes seen (Or.inl rfl)).trans (Gains.takeFlag (Or.inl rfl) h hfile)
  | verbose => exact (takeLong_longBytes seen (Or.inr rfl)).trans (Gains.takeFlag (Or.inr rfl) h hfile)
  | @group letters hsome hknown =>
    match letters, hsome, hknown, h with
    | letter :: rest, hsome, hknown, h =>
      have hletter : letter ≠ dash := by
        rcases hknown letter List.mem_cons_self with rfl | rfl <;> decide
      have hdash : ¬ '-'.toUInt8 ≠ dash := not_not.2 rfl
      rw [Seen.take, if_neg hdash, if_neg hletter]
      exact Gains.takeGroup hknown h hfile
  | file hplain =>
    have htake := Gains.takeFile h
    match argument, hplain, htake with
    | [], hplain, htake => exact htake
    | [b], hplain, htake => exact htake
    | first :: second :: rest, hplain, htake =>
      have hfirst : first ≠ dash := by
        rintro rfl
        rcases hplain with hplain | hplain
        · exact hplain rfl
        · cases (List.cons.inj hplain).2
      exact (if_pos hfirst).trans htake

end Take

/-! ## All arguments -/

section Walk

variable {seen next : Seen} {arguments : List Bytes} {flags : List Flag} {files : List Bytes}

theorem takeFiles_gains (h : files.foldlM takeFile seen = .ok next) : seen.Gains [] files next := by
  induction files generalizing seen with
  | nil =>
    rw [← Except.ok.inj h]
    exact .refl seen
  | cons file rest ih =>
    rw [List.foldlM_cons] at h
    cases hs : seen.takeFile file with
    | error halt => rw [hs] at h; cases h
    | ok between =>
      rw [hs] at h
      exact (takeFile_gains hs).trans (ih h)

theorem Gains.takeFiles (h : seen.Gains [] files next) : files.foldlM Seen.takeFile seen = .ok next := by
  induction files generalizing seen with
  | nil => rw [h.eq_of_nil]; rfl
  | cons file rest ih =>
    have hparts : seen.Gains ([] ++ []) ([file] ++ rest) next := h
    obtain ⟨between, hfirst, hlater, -⟩ := hparts.split
    rw [List.foldlM_cons, hfirst.takeFile]
    exact ih hlater

/-- **What the walk accepts is spelled** -/
theorem walk_gains (h : seen.walk arguments = .ok next) :
    ∃ flags files, Spells arguments flags files ∧ seen.Gains flags files next := by
  induction arguments generalizing seen with
  | nil =>
    rw [walk] at h
    rw [← Except.ok.inj h]
    exact ⟨[], [], .nil, .refl seen⟩
  | cons argument rest ih =>
    rw [walk] at h
    split_ifs at h with hdashes
    · rw [hdashes]
      exact ⟨[], rest, .files rest, takeFiles_gains h⟩
    · cases hs : seen.take argument with
      | error halt => rw [hs] at h; cases h
      | ok between =>
        rw [hs] at h
        obtain ⟨flags, files, hspelled, hfirst⟩ := take_gains hs
        obtain ⟨moreFlags, moreFiles, hspells, hlater⟩ := ih h
        exact ⟨_, _, .cons hspelled hspells, hfirst.trans hlater⟩

/-- **What is spelled is accepted**, if the file that results has a name -/
theorem Gains.walk (hspells : Spells arguments flags files) (h : seen.Gains flags files next)
    (hfile : next.file ≠ some []) : seen.walk arguments = .ok next := by
  induction hspells generalizing seen with
  | nil => rw [h.eq_of_nil, Seen.walk]
  | files files => exact (if_pos rfl).trans h.takeFiles
  | cons first later ih =>
    obtain ⟨between, hfirst, hlater, hempty⟩ := h.split
    have hdashes : ¬ _ = [dash, dash] := first.ne_dashes
    rw [Seen.walk, if_neg hdashes, Gains.take first hfirst fun hc => hfile (hempty hc)]
    exact ih hlater

end Walk

end Seen

/-! ## The whole command line -/

/-- neither flag twice and not both: one flag at most -/
theorem length_le_one_iff {flags : List Flag} (hknown : ∀ flag ∈ flags, flag = .quiet ∨ flag = .verbose) :
    flags.length ≤ 1 ↔ flags.count .quiet ≤ 1 ∧ flags.count .verbose ≤ 1 ∧ ¬ (.quiet ∈ flags ∧ .verbose ∈ flags) := by
  match flags, hknown with
  | [], _ => simp
  | [flag], hknown => rcases hknown flag (by simp) with rfl | rfl <;> simp
  | first :: second :: rest, hknown =>
    rcases hknown first (by simp) with rfl | rfl <;> rcases hknown second (by simp) with rfl | rfl <;> simp

/-- how much is logged with these flags -/
def verbosityOf (flags : List Flag) : Verbosity :=
  if .quiet ∈ flags then .quiet else if .verbose ∈ flags then .verbose else .normal

theorem finish_eq_ok {seen : Seen} (hknown : ∀ flag ∈ seen.flags, flag = .quiet ∨ flag = .verbose)
    {arguments : Arguments} : seen.finish = .ok arguments ↔
      ∃ file, seen.file = some file ∧ file ≠ [] ∧ seen.flags.length ≤ 1 ∧
        arguments = ⟨⟨file⟩, verbosityOf seen.flags⟩ := by
  obtain ⟨flags, file?⟩ := seen
  unfold Seen.finish
  match file?, flags, hknown with
  | none, [], _ => simp
  | none, [flag], _ => simp
  | none, first :: second :: rest, _ => simp
  | some [], flags, _ => simp
  | some (b :: rest), [], _ => simp [verbosityOf, eq_comm]
  | some (b :: rest), [flag], hknown =>
    rcases hknown flag (by simp) with rfl | rfl <;> simp [verbosityOf, eq_comm]
  | some (b :: rest), first :: second :: others, _ => simp

/-- **The accepted command lines**, by what they spell -/
theorem parse_eq_ok {line : List Bytes} {arguments : Arguments} : Arguments.parse line = .ok arguments ↔
    ∃ flags file, Spells line.tail flags [file] ∧ file ≠ [] ∧ flags.length ≤ 1 ∧
      arguments = ⟨⟨file⟩, verbosityOf flags⟩ := by
  unfold Arguments.parse
  constructor
  · intro h
    cases hwalk : Seen.nothing.walk line.tail with
    | error halt => rw [hwalk] at h; cases h
    | ok seen =>
      rw [hwalk] at h
      obtain ⟨flags, files, hspells, hgains⟩ := Seen.walk_gains hwalk
      have hflags : seen.flags = flags := hgains.flags_eq
      obtain ⟨file, hfile, hname, hlen, harguments⟩ := (finish_eq_ok (hflags ▸ hspells.known)).1 h
      have hfiles : files = [file] := by
        have hfiles := hgains.file_eq
        rw [hfile] at hfiles
        exact hfiles.symm
      subst hfiles hflags
      exact ⟨seen.flags, file, hspells, hname, hlen, harguments⟩
  · rintro ⟨flags, file, hspells, hname, hlen, rfl⟩
    have hgains : Seen.nothing.Gains flags [file] ⟨flags, some file⟩ := by
      refine ⟨rfl, rfl, ?_, by simp [Seen.nothing]⟩
      match flags, hlen with
      | [], _ => simp
      | [flag], _ => simp
    rw [hgains.walk hspells (by simpa using hname)]
    exact (finish_eq_ok hspells.known).2 ⟨file, rfl, hname, hlen, rfl⟩

theorem parse_of_spells {line : List Bytes} {flags : List Flag} {files : List Bytes}
    (h : Spells line.tail flags files) {arguments : Arguments} : Arguments.parse line = .ok arguments ↔
      ∃ file, files = [file] ∧ file ≠ [] ∧ flags.length ≤ 1 ∧ arguments = ⟨⟨file⟩, verbosityOf flags⟩ := by
  rw [parse_eq_ok]
  constructor
  · rintro ⟨others, file, hspells, hrest⟩
    obtain ⟨rfl, rfl⟩ := hspells.unique h
    exact ⟨file, rfl, hrest⟩
  · rintro ⟨file, rfl, hrest⟩
    exact ⟨flags, file, h, hrest⟩

theorem verbosityOf_perm {flags moved : List Flag} (h : flags.Perm moved) : verbosityOf moved = verbosityOf flags := by
  simp only [verbosityOf, h.mem_iff]

theorem word_level_verbosityOf (flags : List Flag) : (verbosityOf flags).level.word.toLower =
    if .quiet ∈ flags then "error" else if .verbose ∈ flags then "debug" else "info" := by
  unfold verbosityOf
  split_ifs <;> decide +kernel

/-- **A command line is accepted exactly if it follows the grammar.** After the name of the program its arguments spell
one file, which has a name, and flags of which neither is repeated and not both are given. The file is taken as the bytes
that were given, the verbosity says which flag was, and with it goes the level down to which events are logged. Where the
flag stands and how it is written makes no difference: command lines that spell the same files, and the same flags in
any order, are accepted together and with the same arguments. -/
theorem parse_accepts_grammar (line : List Bytes) (arguments : Arguments) :
    (Arguments.parse line = .ok arguments ↔
      ∃ flags file, Spells line.tail flags [file] ∧ file ≠ [] ∧
        flags.count .quiet ≤ 1 ∧ flags.count .verbose ≤ 1 ∧ ¬ (.quiet ∈ flags ∧ .verbose ∈ flags) ∧
        arguments.file = ⟨file⟩ ∧
        arguments.verbosity =
          (if .quiet ∈ flags then .quiet else if .verbose ∈ flags then .verbose else .normal)) ∧
    (∀ flags files, Arguments.parse line = .ok arguments → Spells line.tail flags files →
      arguments.verbosity.level.word.toLower =
        if .quiet ∈ flags then "error" else if .verbose ∈ flags then "debug" else "info") ∧
    ∀ other flags moved files, Spells line.tail flags files → Spells other.tail moved files → flags.Perm moved →
      (Arguments.parse other = .ok arguments ↔ Arguments.parse line = .ok arguments) := by
  refine ⟨?_, ?_, ?_⟩
  · rw [parse_eq_ok]
    constructor
    · rintro ⟨flags, file, hspells, hname, hlen, rfl⟩
      obtain ⟨hquiet, hverbose, hboth⟩ := (length_le_one_iff hspells.known).1 hlen
      exact ⟨flags, file, hspells, hname, hquiet, hverbose, hboth, rfl, rfl⟩
    · rintro ⟨flags, file, hspells, hname, hquiet, hverbose, hboth, hfile, hverbosity⟩
      refine ⟨flags, file, hspells, hname, (length_le_one_iff hspells.known).2 ⟨hquiet, hverbose, hboth⟩, ?_⟩
      cases arguments
      exact congr (congrArg Arguments.mk hfile) hverbosity
  · intro flags files hparse hspells
    obtain ⟨file, -, -, -, rfl⟩ := (parse_of_spells hspells).1 hparse
    exact word_level_verbosityOf flags
  · intro other flags moved files hspells hmoved hperm
    rw [parse_of_spells hspells, parse_of_spells hmoved, verbosityOf_perm hperm, hperm.length_eq]

/-- after two dashes even a flag is a file -/
example : Arguments.parse [ascii ['x'], ascii ['-', 'q'], ascii ['-', '-'], ascii ['-', 'v']] =
    .ok ⟨⟨ascii ['-', 'v']⟩, .quiet⟩ := by decide

end CbcFile
