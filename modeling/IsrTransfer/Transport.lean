import IsrTransfer.Protocol
import IsrTransfer.Posix.Machine

/-!
# Moving exactly so many bytes

`net_recv_exact`, `net_send_exact` and `isr_write_all` of `lib/isr.c`: loops around a call that
moves some of the bytes.  Each iteration moves at least one, so the number of bytes bounds the
iterations, and the bound that the loops are given here is never used up.

There is one rule for each.  Together they say that nothing is seen of the fragmentation from
outside: on success everything has been moved, on failure a proper beginning.  Every state in
between is covered as well.  A caller whose guard asks something of each call says it for the
state after any number of bytes, and so may speak of the moments inside a transfer without
knowing how the bytes were cut up.

The section on runs has the converse: bytes that are there can be received, and bytes can be
written.  It is for witnesses, and for the states that a caller has to show to exist.
-/

namespace IsrTransfer

open Effect Posix

/-- `isr_open_read`. -/
abbrev isrOpenRead (path : List UInt8) : Prog (Option Fd) := sysCall (.openRead path)

/-- `isr_open_write`. -/
abbrev isrOpenWrite (path : List UInt8) : Prog (Option Fd) := sysCall (.openWrite path)

/-- `isr_close`. -/
abbrev isrClose (fd : Fd) : Prog Unit := sysCall (.close fd)

/-- `isr_read`. -/
abbrev isrRead (fd : Fd) (len : Nat) : Prog (Option (List UInt8)) :=
  sysCall (.read fd len)

/-- `isr_write`. -/
abbrev isrWrite (fd : Fd) (buf : List UInt8) : Prog (Option Nat) :=
  sysCall (.write fd buf)

/-- `isr_stat`: whether it is a directory, and the size. -/
abbrev isrStat (path : List UInt8) : Prog (Option (Bool × Nat)) := sysCall (.stat path)

/-- The loop of `net_recv_exact`: `left` bytes are still missing from `buf`. -/
def netRecvExactLoop : (fuel room left : Nat) → (buf : List UInt8) →
    Prog (Option (List UInt8))
  | _, _, 0, buf => return some buf
  | 0, _, _ + 1, _ => outOfFuel
  | fuel + 1, room, left + 1, buf => do
    match ← netRecv room (left + 1) with
    | none => return none
    | some r => netRecvExactLoop fuel (room - r.length) (left + 1 - r.length) (buf ++ r)

/-- `net_recv_exact` into a buffer with room for `room` bytes; `none` is `-1`. -/
def netRecvExact (room len : Nat) : Prog (Option (List UInt8)) :=
  netRecvExactLoop len room len []

/-- The loop of `net_send_exact`: `buf` is still to be sent. -/
def netSendExactLoop : (fuel : Nat) → (buf : List UInt8) → Prog Int
  | _, [] => return 0
  | 0, _ :: _ => outOfFuel
  | fuel + 1, b :: buf => do
    match ← netSend (b :: buf) with
    | none => return -1
    | some r => netSendExactLoop fuel ((b :: buf).drop r)

/-- `net_send_exact`. -/
def netSendExact (buf : List UInt8) : Prog Int := netSendExactLoop buf.length buf

/-- The loop of `isr_write_all`: `buf` is still to be written. -/
def isrWriteAllLoop (fd : Fd) : (fuel : Nat) → (buf : List UInt8) → Prog Int
  | _, [] => return 0
  | 0, _ :: _ => outOfFuel
  | fuel + 1, b :: buf => do
    match ← isrWrite fd (b :: buf) with
    | none => return -1
    | some w => isrWriteAllLoop fd fuel ((b :: buf).drop w)

/-- `isr_write_all`. -/
def isrWriteAll (fd : Fd) (buf : List UInt8) : Prog Int := isrWriteAllLoop fd buf.length buf

section Rules

variable {F : Faults} {lossy eof : Bool} {A : Guard (NetOp OsOp) World} {w : World}

theorem ensures_netRecvExactLoop {Q : Option (List UInt8) → World → Prop}
    (left : Nat) : ∀ {fuel room : Nat} {buf : List UInt8} {w : World}, left ≤ fuel →
    (∀ k, k < left → k ≤ w.rx.length →
      A (w.received k) (.recv (room - k) (left - k))) →
    (left ≤ w.rx.length → Q (some (buf ++ w.rx.take left)) (w.received left)) →
    (∀ k, k < left → k ≤ w.rx.length → (lossy ∨ (eof ∧ k = w.rx.length)) →
      Q none (w.received k)) →
    Ensures (machine F lossy eof) A (netRecvExactLoop fuel room left buf) Q w := by
  induction left using Nat.strongRecOn with
  | ind left ih =>
    intro fuel room buf w hfuel hA hok hfail
    cases left with
    | zero =>
      unfold netRecvExactLoop
      have h := hok (Nat.zero_le _)
      rw [List.take_zero, List.append_nil, Proc.received_zero] at h
      exact h
    | succ n =>
      obtain ⟨fuel, rfl⟩ : ∃ m, fuel = m + 1 := ⟨fuel - 1, by omega⟩
      rw [netRecvExactLoop, ensures_bind, ensures_netRecv]
      refine ⟨hA 0 (by omega) (by omega), fun k hk0 hkn hkr => ?_, fun hend => ?_⟩
      · have hlen : (w.rx.take k).length = k := by
          rw [List.length_take]
          omega
        have hrx : (w.received k).rx.length = w.rx.length - k := by simp
        simp only [hlen]
        refine ih (n + 1 - k) (by omega) (by omega) ?_ ?_ ?_
        · intro j hj hjr
          have h := hA (k + j) (by omega) (by omega)
          rw [Proc.received_received, Nat.sub_sub, Nat.sub_sub]
          exact h
        · intro hle
          have h := hok (by omega)
          rw [Proc.received_received, Nat.add_sub_cancel' hkn, Proc.received_rx,
            List.append_assoc, ← List.take_add, Nat.add_sub_cancel' hkn]
          exact h
        · intro j hj hjr hl
          rw [Proc.received_received]
          refine hfail (k + j) (by omega) (by omega) ?_
          rcases hl with hl | ⟨he, hjl⟩
          · exact Or.inl hl
          · exact Or.inr ⟨he, by omega⟩
      · have h := hfail 0 (by omega) (by omega)
        rw [Proc.received_zero] at h
        refine h ?_
        rcases hend with hl | ⟨he, hrx⟩
        · exact Or.inl hl
        · exact Or.inr ⟨he, by rw [hrx]; rfl⟩

/-- **`net_recv_exact` hands over the next `len` bytes**, or fails with fewer
received. -/
theorem ensures_netRecvExact {room len : Nat} {Q : Option (List UInt8) → World → Prop}
    (hA : ∀ k, k < len → k ≤ w.rx.length → A (w.received k) (.recv (room - k) (len - k)))
    (hok : len ≤ w.rx.length → Q (some (w.rx.take len)) (w.received len))
    (hfail : ∀ k, k < len → k ≤ w.rx.length → (lossy ∨ (eof ∧ k = w.rx.length)) →
      Q none (w.received k)) :
    Ensures (machine F lossy eof) A (netRecvExact room len) Q w :=
  ensures_netRecvExactLoop len (Nat.le_refl _) hA hok hfail

theorem ensures_netSendExactLoop {Q : Int → World → Prop} (n : Nat) :
    ∀ {fuel : Nat} {buf : List UInt8} {w : World}, buf.length = n → n ≤ fuel →
    (∀ k, k < buf.length → A (w.sent (buf.take k)) (.send (buf.drop k))) →
    Q 0 (w.sent buf) →
    (∀ k, k < buf.length → lossy → Q (-1) (w.sent (buf.take k))) →
    Ensures (machine F lossy eof) A (netSendExactLoop fuel buf) Q w := by
  induction n using Nat.strongRecOn with
  | ind n ih =>
    intro fuel buf w hn hfuel hA hok hfail
    cases buf with
    | nil =>
      unfold netSendExactLoop
      rw [Proc.sent_nil] at hok
      exact hok
    | cons b buf =>
      obtain ⟨fuel, rfl⟩ : ∃ m, fuel = m + 1 := ⟨fuel - 1, by simp at hn; omega⟩
      have hA0 := hA 0 (by simp)
      rw [List.take_zero, List.drop_zero, Proc.sent_nil] at hA0
      rw [netSendExactLoop, ensures_bind, ensures_netSend]
      refine ⟨hA0, fun k hk0 hk => ?_, fun hl => ?_⟩
      · have hdrop : ((b :: buf).drop k).length = n - k := by rw [List.length_drop, hn]
        have happ : ∀ j, (b :: buf).take k ++ ((b :: buf).drop k).take j =
            (b :: buf).take (k + j) := fun j => (List.take_add).symm
        refine ih (n - k) (by omega) hdrop (by omega) ?_ ?_ ?_
        · intro j hj
          have h := hA (k + j) (by omega)
          rw [Proc.sent_sent, happ, List.drop_drop]
          exact h
        · rw [Proc.sent_sent, List.take_append_drop]
          exact hok
        · intro j hj hl
          rw [Proc.sent_sent, happ]
          exact hfail (k + j) (by omega) hl
      · have h := hfail 0 (by simp) hl
        rw [List.take_zero, Proc.sent_nil] at h
        exact h

/-- **`net_send_exact` sends all of `buf`**, or fails with a proper beginning
sent. -/
theorem ensures_netSendExact {buf : List UInt8} {Q : Int → World → Prop}
    (hA : ∀ k, k < buf.length → A (w.sent (buf.take k)) (.send (buf.drop k)))
    (hok : Q 0 (w.sent buf))
    (hfail : ∀ k, k < buf.length → lossy → Q (-1) (w.sent (buf.take k))) :
    Ensures (machine F lossy eof) A (netSendExact buf) Q w :=
  ensures_netSendExactLoop buf.length rfl (Nat.le_refl _) hA hok hfail

theorem ensures_isrWriteAllLoop {fd : Fd} {Q : Int → World → Prop} (n : Nat) :
    ∀ {fuel : Nat} {buf : List UInt8} {w : World}, buf.length = n → n ≤ fuel →
    (∀ k, k < buf.length →
      A (w.withSys (w.sys.write fd (buf.take k))) (.sys (.write fd (buf.drop k)))) →
    Q 0 (w.withSys (w.sys.write fd buf)) →
    (∀ k, k < buf.length → F.writes → Q (-1) (w.withSys (w.sys.write fd (buf.take k)))) →
    Ensures (machine F lossy eof) A (isrWriteAllLoop fd fuel buf) Q w := by
  induction n using Nat.strongRecOn with
  | ind n ih =>
    intro fuel buf w hn hfuel hA hok hfail
    cases buf with
    | nil =>
      unfold isrWriteAllLoop
      rw [Sys.write_nil, Proc.withSys_self] at hok
      exact hok
    | cons b buf =>
      obtain ⟨fuel, rfl⟩ : ∃ m, fuel = m + 1 := ⟨fuel - 1, by simp at hn; omega⟩
      have hA0 := hA 0 (by simp)
      rw [List.take_zero, List.drop_zero, Sys.write_nil, Proc.withSys_self] at hA0
      rw [isrWriteAllLoop, ensures_bind, ensures_write]
      refine ⟨hA0, fun k hk0 hk => ?_, fun hl => ?_⟩
      · have hdrop : ((b :: buf).drop k).length = n - k := by rw [List.length_drop, hn]
        have happ : ∀ j, (b :: buf).take k ++ ((b :: buf).drop k).take j =
            (b :: buf).take (k + j) := fun j => (List.take_add).symm
        refine ih (n - k) (by omega) hdrop (by omega) ?_ ?_ ?_
        · intro j hj
          have h := hA (k + j) (by omega)
          rw [Proc.withSys_withSys, Proc.withSys_sys, Sys.write_write, happ, List.drop_drop]
          exact h
        · rw [Proc.withSys_withSys, Proc.withSys_sys, Sys.write_write,
            List.take_append_drop]
          exact hok
        · intro j hj hl
          rw [Proc.withSys_withSys, Proc.withSys_sys, Sys.write_write, happ]
          exact hfail (k + j) (by omega) hl
      · have h := hfail 0 (by simp) hl
        rw [List.take_zero, Sys.write_nil, Proc.withSys_self] at h
        exact h

/-- **`isr_write_all` writes all of `buf`**, or fails with a proper beginning
written. -/
theorem ensures_isrWriteAll {fd : Fd} {buf : List UInt8} {Q : Int → World → Prop}
    (hA : ∀ k, k < buf.length →
      A (w.withSys (w.sys.write fd (buf.take k))) (.sys (.write fd (buf.drop k))))
    (hok : Q 0 (w.withSys (w.sys.write fd buf)))
    (hfail : ∀ k, k < buf.length → F.writes →
      Q (-1) (w.withSys (w.sys.write fd (buf.take k)))) :
    Ensures (machine F lossy eof) A (isrWriteAll fd buf) Q w :=
  ensures_isrWriteAllLoop buf.length rfl (Nat.le_refl _) hA hok hfail

/-! ## Runs -/

/-- A receive inside the bytes that are there has an answer. -/
theorem answered_recv_within {k room len : Nat} (hpos : 0 < len) (hk : k + len ≤ w.rx.length) :
    Answered (machine F lossy eof) (w.received k) (.recv room len) := by
  refine answered_recv hpos (Or.inl fun hnil => ?_)
  rw [Proc.received_rx, List.drop_eq_nil_iff] at hnil
  omega

/-- Bytes that are there can be received. -/
theorem reaches_netRecvExact {room len : Nat} (hlen : len ≤ w.rx.length) :
    Reaches (machine Faults.none false false) (netRecvExact room len) w
      (.ret (some (w.rx.take len))) (w.received len) := by
  have hterm : Terminates (machine Faults.none false false) (netRecvExact room len)
      (fun r v => r = some (w.rx.take len) ∧ v = w.received len) w := by
    refine ensures_netRecvExact (fun k hk _ => answered_recv_within (by omega) (by omega))
      (fun _ => ⟨rfl, rfl⟩) (fun k _ _ hl => ?_)
    exact absurd hl (by simp)
  obtain ⟨r, v, hrun, rfl, rfl⟩ := hterm.exists_ret
  exact hrun

/-- Bytes can be written. -/
theorem reaches_isrWriteAll {fd : Fd} {buf : List UInt8} :
    Reaches (machine Faults.none false false) (isrWriteAll fd buf) w (.ret 0)
      (w.withSys (w.sys.write fd buf)) := by
  have hterm : Terminates (machine Faults.none false false) (isrWriteAll fd buf)
      (fun r v => r = 0 ∧ v = w.withSys (w.sys.write fd buf)) w := by
    refine ensures_isrWriteAll (fun k hk => answered_write fd ?_) ⟨rfl, rfl⟩
      (fun k _ hf => absurd hf (by decide))
    intro hnil
    rw [List.drop_eq_nil_iff] at hnil
    omega
  obtain ⟨r, v, hrun, rfl, rfl⟩ := hterm.exists_ret
  exact hrun

/-- The first call of `net_recv_exact` asks for everything. -/
theorem guard_of_netRecvExact {α : Type} {room len : Nat} {f : Option (List UInt8) → Prog α}
    {Q : α → World → Prop} (hlen : 0 < len)
    (h : Ensures (machine F lossy eof) A (netRecvExact room len >>= f) Q w) :
    A w (.recv room len) := by
  obtain ⟨n, rfl⟩ : ∃ n, len = n + 1 := ⟨len - 1, by omega⟩
  rw [ensures_bind, netRecvExact, netRecvExactLoop, ensures_bind, ensures_netRecv] at h
  exact h.1

end Rules

-- With the bytes of a reply known, unfolding one of these would go through all of
-- them; from here on they are only met through their rules.
attribute [irreducible] netRecvExact netSendExact isrWriteAll

end IsrTransfer
