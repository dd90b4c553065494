import IsrTransfer.StreamRules

/-!
# What the uncompressed receiver does with a stream

`isr_receive_file_uncompressed` is told how many bytes to expect, and reads a stream that may end
anywhere.  Here both the socket and the file take and give bytes in pieces of any size, and only
the end of the stream makes a receive fail.

`Within` is the invariant of the run: what has been written is a beginning of the stream no longer
than the file, and no more than eight bytes beyond the file have been received.  The loop keeps it
at every single receive and write, in the middle of a piece as well as between two pieces
(`ensures_within`), and what it returns is read off the stream alone (`outcome`).

The receiver returns a sum, `-1` or `-2`.  Below `2 ^ 55` bytes the sum of the bytes is not
reduced and is not negative, so that the three results tell three kinds of streams apart: those
whose checksum is there and right (`SumMatches`), those whose checksum is there and wrong
(`SumDiffers`), and those that end before the checksum does.
-/

namespace IsrTransfer

open Effect Posix

variable {F : Faults} {fd : Fd} {n : Nat} {w : World}

/-- From `w` on, the first `m` bytes of the stream have been written and the first `k`
received. -/
def Within (w : World) (fd : Fd) (n : Nat) (v : World) : Prop :=
  ∃ m k, m ≤ n ∧ m ≤ k ∧ k ≤ n + 8 ∧ k ≤ w.rx.length ∧ v = taken w fd (w.rx.take m) k

/-- What is returned for a file of `n` bytes at the beginning of `stream`. -/
def outcome (n : Nat) (stream : List UInt8) : Int :=
  if stream.length < n + 8 then -1
  else verdict (stream.take n) ((stream.drop n).take 8)

/-- The process is within the file, and its next call has an answer. -/
def AnsweredWithin (F : Faults) (w : World) (fd : Fd) (n : Nat) : Guard (NetOp OsOp) World :=
  fun _ v op => Within w fd n v ∧ Answered (machine F false true) v op

/-! ## The loop -/

/-- A receive waits for no more than what belongs to the file and its checksum. -/
theorem answeredWithin_recv {m k room len : Nat} (hm : m ≤ n) (hmk : m ≤ k) (hk : k ≤ n + 8)
    (hkr : k ≤ w.rx.length) (hlen : 0 < len) :
    AnsweredWithin F w fd n (taken w fd (w.rx.take m) k) (.recv room len) :=
  ⟨⟨m, k, hm, hmk, hk, hkr, rfl⟩, answered_recv hlen (Or.inr rfl)⟩

/-- A piece of `p` bytes, of which `k` have been written. -/
theorem write_piece (m p k : Nat) (hk : k ≤ p) :
    (taken w fd (w.rx.take m) (m + p)).withSys ((taken w fd (w.rx.take m) (m + p)).sys.write fd
        (((w.rx.drop m).take p).take k)) = taken w fd (w.rx.take (m + k)) (m + p) := by
  rw [List.take_take, Nat.min_eq_left hk, List.take_add]
  simp [taken, Sys.write_write]

/-- The checksum comes after the file. -/
theorem ensures_within_checksum (hn : n ≤ w.rx.length) :
    Ensures (machine F false true) (AnsweredWithin F w fd n)
      (isrReceiveChecksum (checksumOf (w.rx.take n)))
      (fun r v => Within w fd n v ∧ r = outcome n w.rx ∧
        (r ≠ -1 → v = taken w fd (w.rx.take n) (n + 8)))
      (taken w fd (w.rx.take n) n) := by
  refine ensures_isrReceiveChecksum (fun k hk hkr => ?_) (fun hlen => ?_) (fun k hk hkr hl => ?_)
  all_goals rw [taken_rx, List.length_drop] at *
  · rw [received_taken]
    exact answeredWithin_recv (Nat.le_refl n) (by omega) (by omega) (by omega) (by omega)
  · rw [received_taken]
    refine ⟨⟨n, n + 8, Nat.le_refl n, by omega, Nat.le_refl _, by omega, rfl⟩, ?_, fun _ => rfl⟩
    rw [outcome, if_neg (by omega)]
  · have hend : k = w.rx.length - n := by simpa using hl
    rw [received_taken]
    refine ⟨⟨n, n + k, Nat.le_refl n, by omega, by omega, by omega, rfl⟩, ?_,
      fun h => absurd rfl h⟩
    rw [outcome, if_pos (by omega)]

/-- The loop in the middle: the first `m` bytes have been received and written. -/
theorem ensures_within_loop (hF : F.writes = false) (fuel : Nat) : ∀ {m rem : Nat},
    m + rem = n → rem ≤ fuel → m ≤ w.rx.length →
    Ensures (machine F false true) (AnsweredWithin F w fd n)
      (isrReceiveFileUncompressedLoop fd fuel rem (checksumOf (w.rx.take m)))
      (fun r v => Within w fd n v ∧ r = outcome n w.rx ∧
        (r ≠ -1 → v = taken w fd (w.rx.take n) (n + 8)))
      (taken w fd (w.rx.take m) m) := by
  induction fuel with
  | zero =>
    intro m rem hsum hrem hm
    obtain rfl : rem = 0 := by omega
    obtain rfl : m = n := by omega
    unfold isrReceiveFileUncompressedLoop
    exact ensures_within_checksum hm
  | succ fuel ih =>
    intro m rem hsum hrem hm
    cases rem with
    | zero =>
      obtain rfl : m = n := by omega
      unfold isrReceiveFileUncompressedLoop
      exact ensures_within_checksum hm
    | succ rem =>
      rw [isrReceiveFileUncompressedLoop, ensures_bind]
      -- the size of this piece
      generalize hp : (if rem + 1 < isrIoBufsize then rem + 1 else isrIoBufsize) = p
      have hbuf : isrIoBufsize = 65536 := rfl
      have hp0 : 0 < p := by split at hp <;> omega
      have hpn : p ≤ rem + 1 := by split at hp <;> omega
      refine ensures_netRecvExact (fun k hk hkr => ?_) (fun hlen => ?_) (fun k hk hkr hl => ?_)
      all_goals rw [taken_rx, List.length_drop] at *
      · -- in the middle of a piece
        rw [received_taken]
        exact answeredWithin_recv (by omega) (by omega) (by omega) (by omega) (by omega)
      · -- the piece is there, and goes to the file
        have hplen : ((w.rx.drop m).take p).length = p := by
          rw [List.length_take, List.length_drop]
          omega
        have hjoin : w.rx.take m ++ (w.rx.drop m).take p = w.rx.take (m + p) := List.take_add.symm
        rw [received_taken]
        simp only [ensures_bind, checksumOf_append, hjoin]
        refine ensures_isrWriteAll (fun k hk => ?_) ?_ (fun k hk hw => ?_)
        · rw [write_piece m p k (by omega)]
          refine ⟨⟨m + k, m + p, by omega, by omega, by omega, by omega, rfl⟩,
            answered_write fd fun hnil => ?_⟩
          rw [List.drop_eq_nil_iff] at hnil
          omega
        · have hall := @write_piece fd w m p p (Nat.le_refl p)
          rw [List.take_take, Nat.min_self] at hall
          rw [if_neg (by decide), hall]
          exact ih (by omega) (by omega) (by omega)
        · rw [hF] at hw
          exact absurd hw (by decide)
      · -- the stream ends in the middle of a piece
        have hend : k = w.rx.length - m := by simpa using hl
        rw [received_taken]
        refine ⟨⟨m, m + k, by omega, by omega, by omega, by omega, rfl⟩, ?_,
          fun h => absurd rfl h⟩
        rw [outcome, if_pos (by omega)]

/-- **The receiver stays within the file**, every call of it is answered, and it returns what
the stream says. -/
theorem ensures_within (hF : F.writes = false) :
    Ensures (machine F false true) (AnsweredWithin F w fd n) (isrReceiveFileUncompressed fd n)
      (fun r v => Within w fd n v ∧ r = outcome n w.rx ∧
        (r ≠ -1 → v = taken w fd (w.rx.take n) (n + 8))) w := by
  have hloop := @ensures_within_loop F fd n w hF n 0 n (by omega) (Nat.le_refl n) (Nat.zero_le _)
  rw [List.take_zero, taken_nil, Proc.received_zero] at hloop
  exact hloop

/-! ## The three results -/

/-- The checksum after the first `n` bytes is there, and is their sum. -/
def SumMatches (n : Nat) (stream : List UInt8) : Prop :=
  n + 8 ≤ stream.length ∧ ofBe ((stream.drop n).take 8) = byteSum (stream.take n)

/-- The checksum after the first `n` bytes is there, and is not their sum. -/
def SumDiffers (n : Nat) (stream : List UInt8) : Prop :=
  n + 8 ≤ stream.length ∧ ofBe ((stream.drop n).take 8) ≠ byteSum (stream.take n)

section

variable {stream : List UInt8}

theorem outcome_of_short (h : stream.length < n + 8) : outcome n stream = -1 := if_pos h

/-- Below 2⁵⁵ bytes the verdict compares the byte sum itself, and returns it. -/
theorem outcome_of_long (hn : n < 2 ^ 55) (h : n + 8 ≤ stream.length) :
    outcome n stream = if ofBe ((stream.drop n).take 8) ≠ byteSum (stream.take n) then -2
      else (byteSum (stream.take n) : Int) := by
  have hlen : (stream.take n).length < 2 ^ 55 := by
    rw [List.length_take]
    omega
  rw [outcome, if_neg (by omega), verdict, (toInt64_checksumOf hlen).1]
  have hint := (toInt64_checksumOf hlen).2
  rw [(toInt64_checksumOf hlen).1] at hint
  rw [hint]

theorem outcome_eq_sum_iff (hn : n < 2 ^ 55) :
    outcome n stream = byteSum (stream.take n) ↔ SumMatches n stream := by
  unfold SumMatches
  by_cases h : n + 8 ≤ stream.length
  · rw [outcome_of_long hn h]
    split <;> rename_i hsum
    · exact ⟨fun he => by omega, fun hm => absurd hm.2 hsum⟩
    · exact ⟨fun _ => ⟨h, not_not.mp hsum⟩, fun _ => rfl⟩
  · rw [outcome_of_short (by omega)]
    exact ⟨fun he => by omega, fun hm => absurd hm.1 h⟩

theorem outcome_eq_neg_two_iff (hn : n < 2 ^ 55) :
    outcome n stream = -2 ↔ SumDiffers n stream := by
  unfold SumDiffers
  by_cases h : n + 8 ≤ stream.length
  · rw [outcome_of_long hn h]
    split <;> rename_i hsum
    · exact ⟨fun _ => ⟨h, hsum⟩, fun _ => rfl⟩
    · exact ⟨fun he => by omega, fun hm => absurd hm.2 hsum⟩
  · rw [outcome_of_short (by omega)]
    exact ⟨fun he => by omega, fun hm => absurd hm.1 h⟩

theorem outcome_eq_neg_one_iff (hn : n < 2 ^ 55) :
    outcome n stream = -1 ↔ ¬ SumMatches n stream ∧ ¬ SumDiffers n stream := by
  unfold SumMatches SumDiffers
  by_cases h : n + 8 ≤ stream.length
  · rw [outcome_of_long hn h]
    split <;> rename_i hsum
    · exact ⟨fun he => by omega, fun hm => absurd ⟨h, hsum⟩ hm.2⟩
    · exact ⟨fun he => by omega, fun hm => absurd ⟨h, not_not.mp hsum⟩ hm.1⟩
  · rw [outcome_of_short (by omega)]
    exact ⟨fun _ => ⟨fun hm => h hm.1, fun hm => h hm.1⟩, fun _ => rfl⟩

end

/-- The receiver of `n` bytes in `w`: what it has taken at any moment of a run, and what its
three results mean. -/
structure ReceivesExactly (F : Faults) (fd : Fd) (n : Nat) (w : World) : Prop where
  /-- It returns. -/
  returns : Terminates (machine F false true) (isrReceiveFileUncompressed fd n)
    (fun _ _ => True) w
  /-- It writes a beginning of the stream no longer than `n`, and takes at most `n + 8` bytes. -/
  within : ∀ q v, Reaches (machine F false true) (isrReceiveFileUncompressed fd n) w q v →
    Within w fd n v
  /-- The byte sum is returned if and only if the checksum matches. -/
  sum : ∀ r v, Reaches (machine F false true) (isrReceiveFileUncompressed fd n) w (.ret r) v →
    ((r = byteSum (w.rx.take n) ↔ SumMatches n w.rx) ∧
      (SumMatches n w.rx → v = taken w fd (w.rx.take n) (n + 8)))
  /-- The result is -2 if and only if the checksum is there and differs. -/
  mismatch : ∀ r v, Reaches (machine F false true) (isrReceiveFileUncompressed fd n) w (.ret r) v →
    ((r = -2 ↔ SumDiffers n w.rx) ∧
      (SumDiffers n w.rx → v = taken w fd (w.rx.take n) (n + 8)))
  /-- The result is -1 in every other case. -/
  otherwise : ∀ r v,
    Reaches (machine F false true) (isrReceiveFileUncompressed fd n) w (.ret r) v →
      (r = -1 ↔ ¬ SumMatches n w.rx ∧ ¬ SumDiffers n w.rx)

/-- **Exact behaviour of the uncompressed receiver.**  Whatever the stream, wherever it ends
and however the socket and the file cut it up, `isr_receive_file_uncompressed` takes a
beginning of it, and its result says exactly which of the three kinds of streams it was. -/
theorem uncompressedReceiver_exact (F : Faults) (fd : Fd) (n : Nat) (w : World)
    (hF : F.writes = false) (hn : n < 2 ^ 55) : ReceivesExactly F fd n w := by
  have hall := @ensures_within F fd n w hF
  have hwritten : ∀ {r v}, Reaches (machine F false true) (isrReceiveFileUncompressed fd n) w
      (.ret r) v → n + 8 ≤ w.rx.length → v = taken w fd (w.rx.take n) (n + 8) := by
    intro r v hrun hlen
    obtain ⟨-, hr, hv⟩ := hall.of_reaches hrun
    refine hv fun h1 => ?_
    rw [hr, outcome_eq_neg_one_iff hn] at h1
    by_cases hsum : ofBe ((w.rx.drop n).take 8) = byteSum (w.rx.take n)
    · exact h1.1 ⟨hlen, hsum⟩
    · exact h1.2 ⟨hlen, hsum⟩
  constructor
  · exact hall.weaken (fun _ _ _ h => h.2) (fun _ _ _ => trivial)
  · intro q v hrun
    have hhere := ensures_iff_reaches.mp hall q v hrun
    cases q with
    | ret r => exact hhere.1
    | call op k => exact hhere.1
  · intro r v hrun
    obtain ⟨-, hr, -⟩ := hall.of_reaches hrun
    exact ⟨hr ▸ outcome_eq_sum_iff hn, fun hm => hwritten hrun hm.1⟩
  · intro r v hrun
    obtain ⟨-, hr, -⟩ := hall.of_reaches hrun
    exact ⟨hr ▸ outcome_eq_neg_two_iff hn, fun hm => hwritten hrun hm.1⟩
  · intro r v hrun
    obtain ⟨-, hr, -⟩ := hall.of_reaches hrun
    exact hr ▸ outcome_eq_neg_one_iff hn

/-- Three bytes are expected, and the stream ends in the middle of the checksum. -/
theorem uncompressedReceiver_exact_cut :
    ReceivesExactly Faults.none ⟨some 0, 0⟩ 3
      (Proc.start (.initial .empty) [1, 2, 3, 0, 0, 0, 0]) :=
  uncompressedReceiver_exact _ _ _ _ rfl (by decide)

end IsrTransfer
