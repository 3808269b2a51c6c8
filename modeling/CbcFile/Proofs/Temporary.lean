/-
Temporary files. There are more names to choose from than names in use, so the chosen one is new
(`freshName_not_mem`). A file under a new name comes and goes without a trace (`erase_put_new`), a path that does not
spell the name cannot tell that it is there (`target_put_new`), and a rename of it only puts it where the path leads
(`rename_new`).
-/
import Mathlib.Tactic
import CbcFile.Proofs.Tree

namespace CbcFile.Tree

/-! ## New names -/

theorem ofNat_toUInt8 {c : Char} (h : c.isDigit) : Char.ofNat c.toUInt8.toNat = c := by
  have hc : c.toNat ≤ 57 := by
    simp only [Char.isDigit, Bool.and_eq_true, decide_eq_true_eq, UInt32.le_iff_toNat_le] at h
    exact h.2
  have hb : c.toUInt8.toNat = c.toNat := by
    change c.toNat % 2 ^ 8 = c.toNat
    omega
  rw [hb, Char.ofNat_toNat]

theorem ascii_digits {digits : List Char} (h : ∀ c ∈ digits, c.isDigit) :
    (ascii digits).map (fun b => Char.ofNat b.toNat) = digits := by
  rw [ascii, List.map_map]
  calc digits.map ((fun b => Char.ofNat b.toNat) ∘ Char.toUInt8)
      = digits.map id := List.map_congr_left fun c hc => ofNat_toUInt8 (h c hc)
    _ = digits := List.map_id digits

theorem temporaryName_injective {m n : Nat} (h : temporaryName m = temporaryName n) : m = n := by
  have hd : ascii (Nat.toDigits 10 (100000 + m)) = ascii (Nat.toDigits 10 (100000 + n)) := by
    simpa [temporaryName] using h
  have hdigits : ∀ k, ∀ c ∈ Nat.toDigits 10 k, c.isDigit :=
    fun k c hc => Nat.isDigit_of_mem_toDigits (by omega) (by omega) hc
  have ht : Nat.toDigits 10 (100000 + m) = Nat.toDigits 10 (100000 + n) := by
    rw [← ascii_digits (hdigits (100000 + m)), hd, ascii_digits (hdigits (100000 + n))]
  have hn : 100000 + m = 100000 + n := by
    rw [← Nat.ofDigitChars_ten_toDigits (n := 100000 + m), ht, Nat.ofDigitChars_ten_toDigits]
  omega

/-- **The chosen name is new**: it occurs neither in the tree nor in the path -/
theorem freshName_not_mem (tree : Tree) (path : Path) :
    tree.freshName path ∉ tree.entries.flatMap Prod.fst ++ path.segments := by
  set taken := tree.entries.flatMap Prod.fst ++ path.segments with htaken
  set names := (List.range (taken.length + 1)).map temporaryName with hnames
  have hnodup : names.Nodup := List.nodup_range.map fun _ _ => temporaryName_injective
  have hlen : names.length = taken.length + 1 := by simp [hnames]
  -- more names than there are taken ones cannot all be taken
  obtain ⟨name, hmem, hnew⟩ : ∃ name ∈ names, name ∉ taken := by
    by_contra hc
    have hsub : names ⊆ taken := fun name hm => by_contra fun hn => hc ⟨name, hm, hn⟩
    have := (List.subperm_of_subset hnodup hsub).length_le
    omega
  have hfresh : tree.freshName path = (names.find? fun name => name ∉ taken).getD (temporaryName 0) := rfl
  rw [hfresh]
  cases hf : names.find? fun name => name ∉ taken with
  | none =>
    rw [List.find?_eq_none] at hf
    exact absurd (by simpa using hnew) (hf name hmem)
  | some found => simpa using List.find?_some hf

/-! ## A file under a new name -/

/-- the name occurs nowhere in the tree, and the path does not spell it -/
def New (tree : Tree) (path : Path) (name : Bytes) : Prop :=
  (∀ entry ∈ tree.entries, name ∉ entry.1) ∧ name ∉ path.segments

theorem freshName_new (tree : Tree) (path : Path) : tree.New path (tree.freshName path) := by
  have h := freshName_not_mem tree path
  simp only [List.mem_append, not_or, List.mem_flatMap, not_exists, not_and] at h
  exact h

section New

variable {tree : Tree} {path : Path} {name : Bytes} {directory : Location} {mode : Nat} {data : Bytes}

theorem entry_ne_new (h : tree.New path name) : ∀ entry ∈ tree.entries, entry.1 ≠ directory ++ [name] := by
  intro entry he heq
  apply h.1 entry he
  rw [heq]
  simp

theorem find_new (h : tree.New path name) : tree.find (directory ++ [name]) = none := by
  have hf : (tree.entries.find? fun entry => entry.1 = directory ++ [name]) = none := by
    rw [List.find?_eq_none]
    intro entry he
    simpa using entry_ne_new h entry he
  simp [find, hf]

theorem erase_put_new (h : tree.New path name) (node : Node) :
    (tree.put (directory ++ [name]) node).erase (directory ++ [name]) = tree :=
  erase_put tree (entry_ne_new h) node

theorem put_put (tree : Tree) (place : Location) (a b : Node) : (tree.put place a).put place b = tree.put place b := by
  simp [put, erase]

theorem target_put_new (h : tree.New path name) :
    (tree.put (directory ++ [name]) (.file mode data)).target path = tree.target path :=
  target_put_file (by rw [find_new h]; simp) h.2

/-- the place that a path names is another one than that of a new name -/
theorem target_ne_new {goal : Location} (h : tree.New path name) (ht : tree.target path = .ok goal) :
    goal ≠ directory ++ [name] := by
  obtain ⟨here, last, hleads, -, -, rfl⟩ := target_eq_ok.1 ht
  obtain ⟨names, hseg, -⟩ := hleads.walk
  intro heq
  have hlast : last = name := by simpa using (List.append_inj' heq rfl).2
  apply h.2
  rw [hseg, ← hlast]
  simp

/-- **A rename of a file with a new name** leaves nothing behind and changes the target's place only -/
theorem rename_new (h : tree.New path name) :
    (tree.put (directory ++ [name]) (.file mode data)).rename (directory ++ [name]) path =
      match tree.target path with
      | .error failure => .error failure
      | .ok goal => .ok (tree.put goal (.file mode data)) := by
  rw [rename, target_put_new h]
  cases tree.target path with
  | error failure => rfl
  | ok goal =>
    simp only
    rw [find_put_self _ (by simp), erase_put_new h]

end New

end CbcFile.Tree
