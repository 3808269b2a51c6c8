/-
A source of bytes as the list of replies it still has to give: bytes, an empty read (which means that the input ends
here, for now) or a failure. Bytes that a read leaves over stay in front.

`fill n` asks until `n` bytes have come, an empty read or the end is met, or a failure that does not pass.

Main facts: no byte is lost or invented (`fill_bytes_append_data`), `fill` gives at most `n` bytes (`length_fill_le`),
and a full fill makes the source shorter (`size_fill`), which bounds every loop over it.
-/
import CbcFile.Error

namespace CbcFile

/-- what a source answers to one read -/
inductive SourceReply where
  /-- these bytes, over as many reads as it takes; none means a read of nothing -/
  | data (bytes : Bytes)
  | fail (failure : IoFailure)
deriving DecidableEq, Repr

/-- the replies that are still to come; after the last one every read gives nothing -/
abbrev Source := List SourceReply

namespace Source

/-- the source that holds these bytes and then ends -/
def ofBytes (bytes : Bytes) : Source :=
  [.data bytes]

/-- the bytes of one reply -/
def replyBytes : SourceReply → Bytes
  | .data bytes => bytes
  | .fail _ => []

/-- all bytes of a source in order -/
def data (source : Source) : Bytes :=
  source.flatMap replyBytes

/-- how many bytes a source holds -/
def size (source : Source) : Nat :=
  source.data.length

/-- what a fill leaves: the bytes that came, the failure that stopped it if one did, and the source from there on -/
structure Filled where
  bytes : Bytes
  failure? : Option IoFailure
  rest : Source
deriving DecidableEq, Repr

/-- reads until there are `n` bytes, an empty read, the end, or a failure that does not pass -/
def fill : Nat → Source → Filled
  | 0, source => ⟨[], none, source⟩
  | _ + 1, [] => ⟨[], none, []⟩
  | n + 1, .fail failure :: rest =>
    if failure.passing then fill (n + 1) rest else ⟨[], some failure, rest⟩
  | _ + 1, .data [] :: rest => ⟨[], none, rest⟩
  | n + 1, .data (b :: bytes) :: rest =>
    match bytes.drop n with
    | [] =>
      let more := fill (n - bytes.length) rest
      ⟨b :: bytes ++ more.bytes, more.failure?, more.rest⟩
    | left => ⟨b :: bytes.take n, none, .data left :: rest⟩

/-! ## Facts -/

@[simp] theorem data_nil : data [] = [] := rfl

@[simp] theorem data_cons (reply : SourceReply) (source : Source) :
    data (reply :: source) = replyBytes reply ++ data source := rfl

/-- the bytes that came and those that are left are the bytes that were there -/
theorem fill_bytes_append_data (n : Nat) (source : Source) :
    (fill n source).bytes ++ data (fill n source).rest = data source := by
  fun_induction fill n source with
  | case1 => rfl
  | case2 => rfl
  | case3 n failure rest hp ih => simpa [replyBytes] using ih
  | case4 => simp [replyBytes]
  | case5 => simp [replyBytes]
  | case6 n b bytes rest hd more ih => simp [replyBytes, more, ← ih]
  | case7 n b bytes rest hd =>
    simp only [data_cons, replyBytes]
    rw [← List.append_assoc, List.cons_append, List.take_append_drop]

theorem length_fill_le (n : Nat) (source : Source) : (fill n source).bytes.length ≤ n := by
  fun_induction fill n source with
  | case1 => simp
  | case2 => simp
  | case3 n failure rest hp ih => exact ih
  | case4 => simp
  | case5 => simp
  | case6 n b bytes rest hd more ih =>
    have : bytes.length ≤ n := by simpa using hd
    simp only [List.cons_append, List.length_cons, List.length_append, more]
    omega
  | case7 n b bytes rest hd =>
    have : (bytes.take n).length ≤ n := by rw [List.length_take]; omega
    exact Nat.succ_le_succ this

theorem size_fill (n : Nat) (source : Source) :
    (fill n source).bytes.length + size (fill n source).rest = size source := by
  rw [size, size, ← List.length_append, fill_bytes_append_data]

end Source

end CbcFile
