/-
What a reader can get from a source: the bytes up to the first stop. A source stops at an empty read, at its end, or at a
failure that does not pass. How the bytes before the stop are cut into replies, and which passing failures stand between
them, cannot be seen through `fill`:
- `fill_full`: if enough bytes come before the stop, `fill` takes exactly those it was asked for and leaves the stop alone;
- `fill_short`: if not, it takes them all, reports the stop and goes past it.
-/
import Mathlib.Tactic
import CbcFile.Stream.Source

namespace CbcFile.Source

/-! ## Up to the first stop -/

/-- the bytes that come before the source stops -/
def lead : Source → Bytes
  | [] => []
  | .fail failure :: rest => if failure.passing then lead rest else []
  | .data [] :: _ => []
  | .data (b :: bytes) :: rest => b :: bytes ++ lead rest

/-- the failure that stops the source, if it is one that stops it -/
def stop? : Source → Option IoFailure
  | [] => none
  | .fail failure :: rest => if failure.passing then stop? rest else some failure
  | .data [] :: _ => none
  | .data (_ :: _) :: rest => stop? rest

/-- the source after its first stop -/
def beyond : Source → Source
  | [] => []
  | .fail failure :: rest => if failure.passing then beyond rest else rest
  | .data [] :: rest => rest
  | .data (_ :: _) :: rest => beyond rest

/-- what comes before the stop and what comes after it is all there is -/
theorem lead_append_beyond (source : Source) : source.lead ++ source.beyond.data = source.data := by
  fun_induction lead source with
  | case1 => rfl
  | case2 failure rest hp ih => simpa [beyond, hp, replyBytes] using ih
  | case3 failure rest hp => simp [beyond, hp, replyBytes]
  | case4 rest => simp [beyond, replyBytes]
  | case5 b bytes rest ih => simpa [beyond, replyBytes] using ih

theorem lead_ofBytes (bytes : Bytes) : (ofBytes bytes).lead = bytes := by
  cases bytes <;> simp [ofBytes, lead]

theorem stop?_ofBytes (bytes : Bytes) : (ofBytes bytes).stop? = none := by
  cases bytes <;> rfl

/-! ## Filling -/

/-- **A fill that can be satisfied** takes the next `n` bytes and leaves the rest as it was -/
theorem fill_full (n : Nat) (source : Source) (h : n ≤ source.lead.length) :
    (source.fill n).bytes = source.lead.take n ∧ (source.fill n).failure? = none ∧
      (source.fill n).rest.lead = source.lead.drop n ∧ (source.fill n).rest.stop? = source.stop? ∧
      (source.fill n).rest.beyond = source.beyond := by
  fun_induction fill n source with
  | case1 => simp
  | case2 => simp [lead] at h
  | case3 n failure rest hp ih =>
    simp only [lead, stop?, beyond, hp, if_true] at h ⊢
    exact ih h
  | case4 n failure rest hp => simp [lead, hp] at h
  | case5 => simp [lead] at h
  | case6 n b bytes rest hd more ih =>
    have hb : bytes.length ≤ n := by simpa using hd
    simp only [lead, List.cons_append, List.length_cons, List.length_append] at h
    obtain ⟨h1, h2, h3, h4, h5⟩ := ih (by omega)
    refine ⟨?_, h2, ?_, h4, h5⟩
    · simp only [more, h1, lead, List.cons_append, List.take_succ_cons, List.take_append, List.take_of_length_le hb]
    · simp only [more, h3, lead, List.cons_append, List.drop_succ_cons, List.drop_append, hd, List.nil_append]
  | case7 n b bytes rest hd =>
    have hb : n < bytes.length := by
      by_contra hc
      exact hd (List.drop_eq_nil_of_le (by omega))
    obtain ⟨c, left, hc⟩ := List.exists_cons_of_ne_nil hd
    refine ⟨?_, rfl, ?_, ?_, ?_⟩
    · simp only [lead, List.cons_append, List.take_succ_cons, List.take_append_of_le_length hb.le]
    · simp only [lead, List.cons_append, List.drop_succ_cons, List.drop_append_of_le_length hb.le, hc]
    · simp only [hc, stop?]
    · simp only [hc, beyond]

/-- **A fill that cannot be satisfied** takes all that comes before the stop and goes past it -/
theorem fill_short (n : Nat) (source : Source) (h : source.lead.length < n) :
    source.fill n = ⟨source.lead, source.stop?, source.beyond⟩ := by
  fun_induction fill n source with
  | case1 => omega
  | case2 => rfl
  | case3 n failure rest hp ih =>
    simp only [lead, stop?, beyond, hp, if_true] at h ⊢
    exact ih h
  | case4 n failure rest hp => simp [lead, stop?, beyond, hp]
  | case5 => rfl
  | case6 n b bytes rest hd more ih =>
    simp only [lead, List.cons_append, List.length_cons, List.length_append] at h
    have hm := ih (by omega)
    simp only [more, hm, lead, stop?, beyond, List.cons_append]
  | case7 n b bytes rest hd =>
    simp only [lead, List.cons_append, List.length_cons, List.length_append] at h
    exact absurd (List.drop_eq_nil_of_le (by omega)) hd

end CbcFile.Source
