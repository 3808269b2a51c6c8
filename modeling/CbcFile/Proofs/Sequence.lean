/-
Runs one after another. What a run makes of a tree is a change: nothing, or one file put where its output path leads
(`Makes`). The result and the change depend on the files that the run finds, on whether there is a place for a temporary
file, and on what stands at the output (`Ready.alike`). So the same run can be done again on what it has left, and a file
that another run has put in a place of none of its three paths makes no difference to it (`alike_put`).

Temporary files have another name each time. So results are the same if they are the same summary, or the same error but
for the name of the temporary file that could not be made.

Results:
- `run_again`: a run done a second time comes to the same and leaves the tree as the first one has left it;
- `runs_commute`: two runs on plain paths, neither of which writes where the other one reads or writes, can be done in
  either order.
-/
import Mathlib.Tactic
import CbcFile.Proofs.History
import CbcFile.Proofs.Path.Plain
import CbcFile.Proofs.Siblings

namespace CbcFile

/-! ## Changes -/

/-- puts a node in a place, if there is one to put -/
def Tree.apply (tree : Tree) : Option (Location × Node) → Tree
  | none => tree
  | some (place, node) => tree.put place node

/-- a change made twice is a change made once -/
theorem Tree.apply_apply (tree : Tree) (change : Option (Location × Node)) :
    (tree.apply change).apply change = tree.apply change := by
  cases change with
  | none => rfl
  | some put => exact Tree.put_put tree put.1 put.2 put.2

/-- what a run changes: nothing, or something at the place that its output path names, by an ordinary name -/
structure Makes (tree : Tree) (file : Path) (change : Option (Location × Node)) : Prop where
  tree_eq : (run tree file).tree = tree.apply change
  goal : ∀ put ∈ change, ∃ stem, Named file stem ∧ (stem ≠ Path.dot ∧ stem ≠ Path.dotDot) ∧
    put.1 = tree.nominal (file.withFileName stem)

section Ready

variable {tree other : Tree} {file : Path} {stem keyBytes data : Bytes} {goal : Location}

/-- an output that a file can be renamed to has an ordinary name -/
theorem Ready.ordinary (h : Ready tree file stem keyBytes data) (ht : tree.target (file.withFileName stem) = .ok goal) :
    stem ≠ Path.dot ∧ stem ≠ Path.dotDot := by
  obtain ⟨mode, hfile⟩ := h.encrypted
  obtain ⟨here, hleads, -⟩ := leads_output hfile h.named
  obtain ⟨there, name, hother, ⟨hdot, hup, -⟩, -, -⟩ := Tree.target_eq_ok.1 ht
  obtain ⟨-, rfl⟩ := hleads.unique hother
  exact ⟨hdot, hup⟩

/-- the output is beside the inputs and neither of them -/
theorem Ready.goal_ne (h : Ready tree file stem keyBytes data) (ht : tree.target (file.withFileName stem) = .ok goal) :
    tree.nominal file ≠ goal ∧ tree.nominal (keyPath file) ≠ goal := by
  obtain ⟨⟨keyMode, hkey⟩, ⟨mode, hfile⟩, hname⟩ := h
  obtain ⟨here, hfilePlace, hkeyPlace, hleads⟩ := places hkey hfile hname
  obtain ⟨there, name, hother, -, -, rfl⟩ := Tree.target_eq_ok.1 ht
  obtain ⟨rfl, rfl⟩ := hleads.unique hother
  rw [← Tree.nominal_of_resolve hfilePlace, ← Tree.nominal_of_resolve hkeyPlace]
  constructor
  · simp [extension, ascii]
  · simp [extension, keySuffix, ascii, List.append_assoc]

theorem Ready.makes (h : Ready tree file stem keyBytes data) (ht : tree.target (file.withFileName stem) = .ok goal)
    {node : Node} (htree : (run tree file).tree = tree.put goal node) : Makes tree file (some (goal, node)) := by
  refine ⟨htree, fun put hput => ?_⟩
  obtain rfl := Option.some.inj hput
  exact ⟨stem, h.named, h.ordinary ht, Tree.nominal_of_target ht⟩

/-- **Every run makes a change** -/
theorem exists_makes (tree : Tree) (file : Path) : ∃ change, Makes tree file change := by
  rcases run_cases tree file with
    ⟨error, -, ht⟩ | ⟨stem, keyMode, keyBytes, mode, data, plaintext, goal, hkey, hfile, hname, hgoal, -, ht⟩
  · exact ⟨none, ht, by simp⟩
  · have h : Ready tree file stem keyBytes data := ⟨⟨keyMode, hkey⟩, ⟨mode, hfile⟩, hname⟩
    exact ⟨_, h.makes hgoal ht⟩

/-! ## Runs on two trees -/

/-- the same summary, or the same error but for the name of a temporary file -/
def SameResult (result other : Except DecryptError Summary) : Prop :=
  result.mapError DecryptError.nameless = other.mapError DecryptError.nameless

/-- if there is no failure beneath it, the error is the same in every part -/
theorem SameResult.eq_error {result : Except DecryptError Summary} {error : DecryptError}
    (h : SameResult result (.error error)) (hcause : error.cause? = none) : result = .error error := by
  cases result with
  | ok summary => cases h
  | error found =>
    have hsame : found.nameless = error := (Except.error.inj h).trans (DecryptError.nameless_of_cause hcause)
    have hfound : found.cause? = none := by
      rw [← hsame, DecryptError.cause?_nameless] at hcause
      exact Option.map_eq_none_iff.1 hcause
    rw [← hsame, DecryptError.nameless_of_cause hfound]

/-- runs on the two trees have the same result and make the same change -/
structure Alike (tree other : Tree) (file : Path) : Prop where
  result : SameResult (run other file).result (run tree file).result
  change : ∃ change, Makes tree file change ∧ (run other file).tree = other.apply change

theorem Alike.refl (tree : Tree) (file : Path) : Alike tree tree file := by
  obtain ⟨change, hmakes⟩ := exists_makes tree file
  exact ⟨rfl, change, hmakes, hmakes.tree_eq⟩

theorem Alike.of_error {error same : DecryptError} (h : (run tree file).result = .error error)
    (hother : (run other file).result = .error same) (hsame : same.nameless = error.nameless) :
    Alike tree other file := by
  refine ⟨?_, none, ⟨run_tree_of_error h, by simp⟩, run_tree_of_error hother⟩
  rw [SameResult, h, hother]
  exact congrArg Except.error hsame

/-- **What decides about a run past its checks**: if two trees have the same files for it, and it is the same with the
temporary file and with the output path, then the runs are alike -/
theorem Ready.alike (h : Ready tree file stem keyBytes data) (hother : Ready other file stem keyBytes data)
    (hroot : other.fromRoot (file.withFileName stem).directory = tree.fromRoot (file.withFileName stem).directory)
    (hspot : ∀ failure, let output := file.withFileName stem
      tree.newPlace output.directory (tree.freshName output) = .error failure ↔
        other.newPlace output.directory (other.freshName output) = .error failure)
    (htarget : other.target (file.withFileName stem) = tree.target (file.withFileName stem))
    (hmode : ∀ goal, tree.target (file.withFileName stem) = .ok goal →
      outputMode other (file.withFileName stem) = outputMode tree (file.withFileName stem)) :
    Alike tree other file := by
  have hrun := h.run_eq
  have hrun' := hother.run_eq
  cases hk : Key.ofBytes? keyBytes with
  | none =>
    rw [hk] at hrun hrun'
    exact .of_error (congrArg Attempt.result hrun) (congrArg Attempt.result hrun') rfl
  | some key =>
    rw [hk] at hrun hrun'
    simp only at hrun hrun'
    cases hs : tree.newPlace (file.withFileName stem).directory (tree.freshName (file.withFileName stem)) with
    | error failure =>
      rw [hs] at hrun
      rw [(hspot failure).1 hs] at hrun'
      apply Alike.of_error (congrArg Attempt.result hrun) (congrArg Attempt.result hrun')
      simp only [DecryptError.nameless, IoFailure.nameless_making, temporary_nameless hroot]
    | ok spot =>
      cases hs' : other.newPlace (file.withFileName stem).directory (other.freshName (file.withFileName stem)) with
      | error failure =>
        rw [(hspot failure).2 hs'] at hs
        cases hs
      | ok spot' =>
        rw [hs] at hrun
        rw [hs'] at hrun'
        simp only at hrun hrun'
        cases hb : decryptBytes key data with
        | error error =>
          rw [hb] at hrun hrun'
          exact .of_error (congrArg Attempt.result hrun) (congrArg Attempt.result hrun') rfl
        | ok plaintext =>
          rw [hb] at hrun hrun'
          simp only at hrun hrun'
          rw [htarget] at hrun'
          cases ht : tree.target (file.withFileName stem) with
          | error failure =>
            rw [ht] at hrun hrun'
            exact .of_error (congrArg Attempt.result hrun) (congrArg Attempt.result hrun') rfl
          | ok goal =>
            rw [ht] at hrun hrun'
            simp only [hmode goal ht] at hrun hrun'
            have hresult : SameResult (run other file).result (run tree file).result := by rw [SameResult, hrun, hrun']
            exact ⟨hresult, _, h.makes ht (congrArg Attempt.tree hrun), congrArg Attempt.tree hrun'⟩

/-- a run that succeeds has had a place for its temporary file -/
theorem Ready.newPlace_of_ok {summary : Summary} (h : Ready tree file stem keyBytes data)
    (hr : (run tree file).result = .ok summary) :
    ∃ spot, tree.newPlace (file.withFileName stem).directory (tree.freshName (file.withFileName stem)) = .ok spot := by
  rw [h.run_eq] at hr
  cases hs : tree.newPlace (file.withFileName stem).directory (tree.freshName (file.withFileName stem)) with
  | ok spot => exact ⟨spot, rfl⟩
  | error failure =>
    rw [hs] at hr
    cases hk : Key.ofBytes? keyBytes with
    | none => rw [hk] at hr; cases hr
    | some key => rw [hk] at hr; cases hr

end Ready

/-! ## A file put elsewhere -/

section PutFile

variable {tree : Tree} {file path : Path} {place : Location} {mode : Nat} {bytes stem keyBytes data : Bytes}

theorem ready_put_iff (hplace : tree.find place ≠ some .directory) (hkey : tree.nominal (keyPath file) ≠ place)
    (hfile : tree.nominal file ≠ place) :
    Ready (tree.put place (.file mode bytes)) file stem keyBytes data ↔ Ready tree file stem keyBytes data := by
  constructor
  · rintro ⟨⟨keyMode, hkeyStat⟩, ⟨fileMode, hfileStat⟩, hname⟩
    exact ⟨⟨keyMode, (Tree.stat_put_iff hplace hkey).1 hkeyStat⟩,
      ⟨fileMode, (Tree.stat_put_iff hplace hfile).1 hfileStat⟩, hname⟩
  · rintro ⟨⟨keyMode, hkeyStat⟩, ⟨fileMode, hfileStat⟩, hname⟩
    exact ⟨⟨keyMode, (Tree.stat_put_iff hplace hkey).2 hkeyStat⟩,
      ⟨fileMode, (Tree.stat_put_iff hplace hfile).2 hfileStat⟩, hname⟩

theorem outputMode_put (hplace : tree.find place ≠ some .directory) (hne : tree.nominal path ≠ place) :
    outputMode (tree.put place (.file mode bytes)) path = outputMode tree path := by
  unfold outputMode
  cases hs : tree.stat path with
  | ok node => rw [(Tree.stat_put_iff hplace hne).2 hs]
  | error failure =>
    cases hs' : (tree.put place (.file mode bytes)).stat path with
    | error other => rfl
    | ok node =>
      rw [(Tree.stat_put_iff hplace hne).1 hs'] at hs
      cases hs

/-- the walk to a file on a relative path begins at the home directory -/
theorem home_of_stat (hrelative : path.absolute = false) (h : tree.stat path = .ok (.file mode bytes)) :
    tree.find tree.home = some .directory := by
  obtain ⟨place, hresolve, hplace⟩ := Tree.stat_eq_ok h
  obtain ⟨here, name, hleads, -⟩ := Tree.leads_of_resolve hresolve (by rw [hplace]; simp)
  obtain ⟨names, -, hwalk⟩ := hleads.walk
  rw [Tree.start, hrelative] at hwalk
  exact Tree.directory_of_walk hwalk hleads.directory

/-- where a temporary file could be made, one still can be, if not under the same name -/
theorem newPlace_put_of_ok (hplace : tree.find place ≠ some .directory) {name new : Bytes} {spot : Location}
    (h : tree.newPlace path name = .ok spot) :
    ∃ other, (tree.put place (.file mode bytes)).newPlace path new = .ok other := by
  unfold Tree.newPlace at h ⊢
  split_ifs at h with hzero hlong
  cases hd : tree.directoryAt path with
  | error failure => rw [hd] at h; cases h
  | ok here =>
    have hroot : (tree.put place (.file mode bytes)).fromRoot path = tree.fromRoot path := rfl
    rw [if_neg hzero, hroot, if_neg hlong, Tree.directoryAt_put_of_ok hplace hd]
    exact ⟨_, rfl⟩

/-- **A file in another place** makes no difference to a run -/
theorem alike_put (hplace : tree.find place ≠ some .directory) (hrelative : file.absolute = false)
    (hkey : tree.nominal (keyPath file) ≠ place) (hfile : tree.nominal file ≠ place)
    (houtput : ∀ stem, Named file stem → (stem ≠ Path.dot ∧ stem ≠ Path.dotDot) →
      tree.nominal (file.withFileName stem) ≠ place) (mode : Nat) (bytes : Bytes) :
    Alike tree (tree.put place (.file mode bytes)) file := by
  set other := tree.put place (.file mode bytes) with hother
  by_cases hready : ∃ stem keyBytes data, Ready tree file stem keyBytes data
  swap
  · have hready' : ¬ ∃ stem keyBytes data, Ready other file stem keyBytes data := by
      rintro ⟨stem, keyBytes, data, h⟩
      exact hready ⟨stem, keyBytes, data, (ready_put_iff hplace hkey hfile).1 h⟩
    obtain ⟨-, hresult⟩ := run_not_ready hready
    obtain ⟨-, hresult'⟩ := run_not_ready hready'
    rw [hother, Tree.isFile_put hplace hkey, Tree.isFile_put hplace hfile] at hresult'
    exact .of_error hresult hresult' rfl
  obtain ⟨stem, keyBytes, data, h⟩ := hready
  have h' : Ready other file stem keyBytes data := (ready_put_iff hplace hkey hfile).2 h
  obtain ⟨fileMode, hstat⟩ := h.encrypted
  obtain ⟨here, hleads, hlen⟩ := leads_output hstat h.named
  have hleads' : other.Leads (file.withFileName stem) here stem := hleads.put_of_ok hplace
  have hhome := home_of_stat hrelative hstat
  have hhome' : other.find other.home = some .directory := (Tree.find_put_directory hplace tree.home).2 hhome
  apply h.alike h' rfl
  · -- whether there is room does not depend on what stands where
    intro failure output
    by_cases hroom : tree.HasRoom output
    · obtain ⟨spot, hspot⟩ := hleads.newPlace_eq_ok hhome hroom
      obtain ⟨spot', hspot'⟩ := hleads'.newPlace_eq_ok hhome' hroom
      rw [hspot, hspot']
      simp
    · rw [hleads.newPlace_eq_error hhome hroom, hleads'.newPlace_eq_error hhome' hroom]
  · rw [hleads.target_eq hlen, hleads'.target_eq hlen]
    by_cases hname : stem = Path.dot ∨ stem = Path.dotDot
    · rw [if_pos hname, if_pos hname]
    · have hord := not_or.1 hname
      have hne := houtput stem h.named hord
      rw [hleads.nominal_eq, Tree.climb_of_ne hord.1 hord.2] at hne
      rw [if_neg hname, if_neg hname, Tree.find_put_of_ne tree hne]
  · intro goal ht
    exact outputMode_put hplace (houtput stem h.named (h.ordinary ht))

end PutFile

/-! ## The same run again -/

/-- **Repeating a run changes nothing.** Whatever a tree holds and whatever a run on it comes to, the same run on the
tree that it has left has the same result, the same summary or the same error, but for the name of the temporary file if
none could be made, and leaves that tree exactly as it is, with the mode of every file in it. -/
theorem run_again (tree : Tree) (file : Path) :
    let first := run tree file
    let second := run first.tree file
    SameResult second.result first.result ∧ second.tree = first.tree := by
  intro first second
  rcases run_cases tree file with
    ⟨error, -, ht⟩ | ⟨stem, keyMode, keyBytes, mode, data, plaintext, goal, hkey, hfile, hname, hgoal, hr, ht⟩
  · have hsecond : second = run tree file := congrArg (run · file) ht
    rw [hsecond]
    exact ⟨rfl, rfl⟩
  have h : Ready tree file stem keyBytes data := ⟨⟨keyMode, hkey⟩, ⟨mode, hfile⟩, hname⟩
  obtain ⟨spot, hspot⟩ := h.newPlace_of_ok hr
  obtain ⟨here, name, -, -, hdir, -⟩ := Tree.target_eq_ok.1 hgoal
  obtain ⟨hfileNe, hkeyNe⟩ := h.goal_ne hgoal
  -- the second run finds the same files, and its output replaces one of the same mode
  have h' : Ready first.tree file stem keyBytes data := by
    rw [show first.tree = _ from ht]
    exact (ready_put_iff hdir hkeyNe hfileNe).2 h
  obtain ⟨hresult, change, hmakes, hsecond⟩ : Alike tree first.tree file := by
    apply h.alike h' (by rw [show first.tree = _ from ht]; rfl)
    · intro failure output
      obtain ⟨spot', hspot'⟩ : ∃ spot', first.tree.newPlace output.directory (first.tree.freshName output) = .ok spot' := by
        rw [show first.tree = _ from ht]
        exact newPlace_put_of_ok hdir hspot
      rw [hspot, hspot']
      simp
    · rw [show first.tree = _ from ht, Tree.target_put_self hgoal, hgoal]
    · intro other hother
      rw [show first.tree = _ from ht, outputMode, Tree.stat_put_target hgoal]
  refine ⟨hresult, ?_⟩
  calc second.tree
      = first.tree.apply change := hsecond
    _ = (tree.apply change).apply change := by rw [show first.tree = _ from hmakes.tree_eq]
    _ = tree.apply change := tree.apply_apply change
    _ = first.tree := hmakes.tree_eq.symm

/-! ## Two runs -/

/-- the same tree, but for the order in which it is listed -/
structure Tree.Same (tree other : Tree) : Prop where
  home : tree.home = other.home
  listed : tree.entries.Perm other.entries
  find : ∀ place, tree.find place = other.find place

theorem Tree.Same.refl (tree : Tree) : tree.Same tree :=
  ⟨rfl, List.Perm.refl _, fun _ => rfl⟩

/-- **Changes in different places** can be made in either order -/
theorem Tree.put_comm (tree : Tree) {place other : Location} (h : place ≠ other) (node node' : Node) :
    ((tree.put place node).put other node').Same ((tree.put other node').put place node) := by
  refine ⟨rfl, ?_, fun here => ?_⟩
  · have hfilter : ((tree.erase place).erase other).entries = ((tree.erase other).erase place).entries := by
      simp only [erase, List.filter_filter, Bool.and_comm]
    have hleft : ((tree.put place node).put other node').entries =
        (other, node') :: (place, node) :: ((tree.erase place).erase other).entries := by
      simp [put, erase, h]
    have hright : ((tree.put other node').put place node).entries =
        (place, node) :: (other, node') :: ((tree.erase other).erase place).entries := by
      simp [put, erase, h.symm]
    rw [hleft, hright, hfilter]
    exact List.Perm.swap _ _ _
  · by_cases hroot : here = []
    · rw [hroot]
      rfl
    by_cases hplace : here = place
    · rw [hplace] at hroot ⊢
      rw [find_put_of_ne _ h, find_put_self _ hroot, find_put_self _ hroot]
    by_cases hother : here = other
    · rw [hother] at hroot ⊢
      rw [find_put_self _ hroot, find_put_of_ne _ h.symm, find_put_self _ hroot]
    rw [find_put_of_ne _ hother, find_put_of_ne _ hplace, find_put_of_ne _ hplace, find_put_of_ne _ hother]

theorem Tree.apply_comm (tree : Tree) {change other : Option (Location × Node)}
    (h : ∀ put ∈ change, ∀ put' ∈ other, put.1 ≠ put'.1) :
    ((tree.apply change).apply other).Same ((tree.apply other).apply change) := by
  cases change with
  | none => exact .refl _
  | some put =>
    cases other with
    | none => exact .refl _
    | some put' => exact tree.put_comm (h put rfl put' rfl) put.2 put'.2

/-- the output path of a run on the first file is none of the paths that a run on the second one looks at -/
def Apart (file other : Path) : Prop :=
  ∀ paths, companions file = .ok paths → paths.output ∉ relevant other

section Plain

variable {tree : Tree} {a b file : Path} {stem : Bytes}

theorem Path.Plain.key (h : file.Plain) : (keyPath file).Plain :=
  h.append (by decide) (by decide)

theorem Path.Plain.output (h : file.Plain) (hname : Named file stem) (hord : stem ≠ Path.dot ∧ stem ≠ Path.dotDot) :
    (file.withFileName stem).Plain :=
  h.withFileName hname.2 (List.prefix_append stem extension) ⟨hname.1, hord⟩

theorem mem_relevant (file : Path) : file ∈ relevant file ∧ keyPath file ∈ relevant file := by
  unfold relevant
  cases hc : companions file with
  | error error => simp
  | ok paths =>
    obtain ⟨stem, hname⟩ : ∃ stem, Named file stem := by
      by_contra hnone
      rw [companions_unnamed (not_exists.1 hnone)] at hc
      cases hc
    rw [companions_named hname] at hc
    rw [← Except.ok.inj hc]
    simp

theorem Apart.output_ne (h : Apart a b) (hname : Named a stem) :
    a.withFileName stem ≠ b ∧ a.withFileName stem ≠ keyPath b ∧
      ∀ other, Named b other → a.withFileName stem ≠ b.withFileName other := by
  have hnot : a.withFileName stem ∉ relevant b := h _ (companions_named hname)
  refine ⟨fun hc => hnot ?_, fun hc => hnot ?_, fun other hother hc => hnot ?_⟩
  · rw [hc]
    exact (mem_relevant b).1
  · rw [hc]
    exact (mem_relevant b).2
  · rw [hc, relevant, companions_named hother]
    simp

/-- **A run after another one**, apart from it, is like the run without it -/
theorem alike_after (ha : a.Plain) (hb : b.Plain) (hab : Apart a b) (tree : Tree) : Alike tree (run tree a).tree b := by
  rcases run_cases tree a with
    ⟨error, -, ht⟩ | ⟨stem, keyMode, keyBytes, mode, data, plaintext, goal, hkey, hfile, hname, hgoal, -, ht⟩
  · rw [ht]
    exact .refl tree b
  · have h : Ready tree a stem keyBytes data := ⟨⟨keyMode, hkey⟩, ⟨mode, hfile⟩, hname⟩
    obtain ⟨here, name, -, -, hdir, -⟩ := Tree.target_eq_ok.1 hgoal
    obtain ⟨hne, hkeyNe, houtputNe⟩ := hab.output_ne hname
    have hplain := ha.output hname (h.ordinary hgoal)
    obtain rfl := Tree.nominal_of_target hgoal
    rw [ht]
    apply alike_put hdir hb.relative
    · exact (Tree.nominal_ne hplain hb.key hkeyNe).symm
    · exact (Tree.nominal_ne hplain hb hne).symm
    · intro other hother hord
      exact (Tree.nominal_ne hplain (hb.output hother hord) (houtputNe other hother)).symm

/-- **Runs that do not overlap commute.** Take two relative paths of ordinary names, on any tree, such that the output
path of each is neither the path nor the key path nor the output path of the other. Whichever of the two runs is done
first, each of them has the same result, the same summary or the same error, but for the name of the temporary file if
none could be made, and in the end the same stands in every place of the tree. The output of one may well lie on the way
to the files of the other. -/
theorem runs_commute (tree : Tree) {a b : Path} (ha : a.Plain) (hb : b.Plain) (hab : Apart a b) (hba : Apart b a) :
    let first := run tree a
    let second := run first.tree b
    let other := run tree b
    let last := run other.tree a
    second.tree.Same last.tree ∧ SameResult second.result other.result ∧ SameResult last.result first.result := by
  intro first second other last
  obtain ⟨hsecond, changeB, hmakesB, htreeB⟩ := alike_after ha hb hab tree
  obtain ⟨hlast, changeA, hmakesA, htreeA⟩ := alike_after hb ha hba tree
  refine ⟨?_, hsecond, hlast⟩
  rw [show second.tree = _ from htreeB, show last.tree = _ from htreeA, hmakesA.tree_eq, hmakesB.tree_eq]
  apply tree.apply_comm
  intro put hput put' hput'
  obtain ⟨stem, hname, hord, hplace⟩ := hmakesA.goal put hput
  obtain ⟨stem', hname', hord', hplace'⟩ := hmakesB.goal put' hput'
  obtain ⟨-, -, hne⟩ := hab.output_ne hname
  rw [hplace, hplace']
  exact Tree.nominal_ne (ha.output hname hord) (hb.output hname' hord') (hne stem' hname')

end Plain

/-- a path that leads through the output of `sealedFile` -/
def beyondFile : Path :=
  ⟨ascii ['a', '/', 'b', '.', 'a', 'e', 's']⟩

/-- the output of one run stands in the way of the other -/
theorem runs_commute_beyondFile :
    let first := run sealedPair sealedFile
    let other := run sealedPair beyondFile
    (sealedFile.Plain ∧ beyondFile.Plain ∧ Apart sealedFile beyondFile ∧ Apart beyondFile sealedFile) ∧
    (run first.tree beyondFile).tree.Same (run other.tree sealedFile).tree ∧
    (run first.tree beyondFile).result = .error (.missingFile .key (keyPath beyondFile)) ∧
    SameResult (run other.tree sealedFile).result first.result := by
  intro first other
  have hfile : sealedFile.Plain := ⟨by decide, by decide⟩
  have hbeyond : beyondFile.Plain := ⟨by decide, by decide⟩
  have hapart : Apart sealedFile beyondFile := by
    intro paths hpaths
    rw [companions_named (show Named sealedFile (ascii ['a']) from ⟨by decide, by decide⟩)] at hpaths
    rw [← Except.ok.inj hpaths]
    decide
  have hback : Apart beyondFile sealedFile := by
    intro paths hpaths
    rw [companions_named (show Named beyondFile (ascii ['b']) from ⟨by decide, by decide⟩)] at hpaths
    rw [← Except.ok.inj hpaths]
    decide
  have hmissing : other.result = .error (.missingFile .key (keyPath beyondFile)) := by
    rw [show other = run sealedPair beyondFile from rfl, run, if_pos (by decide)]
  obtain ⟨htree, hresult, hlast⟩ := runs_commute sealedPair hfile hbeyond hapart hback
  have hsame : SameResult (run first.tree beyondFile).result (.error (.missingFile .key (keyPath beyondFile))) := by
    rw [← hmissing]
    exact hresult
  exact ⟨⟨hfile, hbeyond, hapart, hback⟩, htree, hsame.eq_error rfl, hlast⟩

end CbcFile
