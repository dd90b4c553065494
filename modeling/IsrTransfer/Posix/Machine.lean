import IsrTransfer.Posix.Calls

/-!
# Rules for the calls

A process on a POSIX system with one stream socket runs in the environment `machine F lossy eof`.
The three parameters say what may go wrong: `F` which calls of the system may fail, `lossy`
whether the network may, and `eof` whether the peer closes the connection when its bytes have all
been received.  Without `eof` a receive with nothing left to receive has no answer: the process
waits.

For each call there is one rule, which says what has to be shown of the state before the call so
that the postcondition holds for every answer.  Proofs about programs use these rules and never
look at `Sys.step`.  The rules of the calls that change nothing leave the world alone, so that a
`close`, a `malloc` or a `stat` is a case distinction and nothing else.

A guard (see `Ensures`) is asked at every call.  Most guards are about a few kinds of calls only,
and `Permits` is what those have in common: they ask nothing of the calls that name no path, nor
of a send.  `Answered` is among them, so a statement about waiting is a matter of the receives.

## What holds of every call

The other sections say what the calls leave unchanged.

* The file system grows (`grows_of_step`, `grows_of_reaches`).  No call of these programs removes
  or renames anything; `FS.Grows` is what a caller may count on, whatever else happens.
* A call that only reads changes no more than how far the open files have been read
  (`Sys.OnlyRead`).
* `mkdir` adds directories and nothing else (`Sys.DirsAdded`), so the files are where they were,
  with the bytes they had.
* Two writes in a row are one write (`write_write`), which is why a loop that writes in pieces has
  one result.
-/

namespace IsrTransfer
namespace Posix

open Effect

/-- A process with its system and its connection. -/
abbrev World : Type := Proc Sys

/-- Programs of such a process. -/
abbrev Prog (α : Type) : Type 1 := Program (NetOp OsOp) α

/-- The environment of a process. -/
abbrev machine (F : Faults) (lossy eof : Bool) : Env (NetOp OsOp) World :=
  Proc.step (Sys.step F) lossy eof

variable {ρ α : Type}

/-- Issue a system call. -/
def sysCall (op : OsOp ρ) : Prog ρ := .perform (.sys op)

/-- Send some beginning of `data`. -/
def netSend (data : List UInt8) : Prog (Option Nat) := .perform (.send data)

/-- Receive at most `len` bytes into a buffer with room for `room`. -/
def netRecv (room len : Nat) : Prog (Option (List UInt8)) := .perform (.recv room len)

/-- Connect to the peer. -/
def netConnect : Prog Bool := .perform .connect

/-- Close the connection. -/
def netClose : Prog Unit := .perform .close

/-- A loop that has used up its bound on iterations. -/
def outOfFuel : Prog α := do
  let e ← sysCall .spin
  nomatch e

section Rules

variable {F : Faults} {lossy eof : Bool} {A : Guard (NetOp OsOp) World} {w : World}

/-- The form common to the rules of the system calls. -/
theorem ensures_sysCall {op : OsOp ρ} {Q : ρ → World → Prop} :
    Ensures (machine F lossy eof) A (sysCall op) Q w ↔
      A w (.sys op) ∧ ∀ r s', Sys.step F w.sys op r s' → Q r (w.withSys s') :=
  Proc.ensures_sys

theorem ensures_openRead {path : List UInt8} {Q : Option Fd → World → Prop} :
    Ensures (machine F lossy eof) A (sysCall (.openRead path)) Q w ↔
      A w (.sys (.openRead path)) ∧
        Q (w.sys.openRead path).1 (w.withSys (w.sys.openRead path).2) ∧
        (F.opens → Q none w) := by
  rw [ensures_sysCall]
  refine and_congr_right fun _ => ⟨fun h => ⟨h _ _ (Or.inl rfl), fun hf => ?_⟩, ?_⟩
  · exact h none w.sys (Or.inr ⟨hf, rfl, rfl⟩)
  · rintro ⟨hok, hfail⟩ r s' (hr | ⟨hf, rfl, rfl⟩)
    · rw [← hr] at hok
      exact hok
    · exact hfail hf

theorem ensures_openWrite {path : List UInt8} {Q : Option Fd → World → Prop} :
    Ensures (machine F lossy eof) A (sysCall (.openWrite path)) Q w ↔
      A w (.sys (.openWrite path)) ∧
        Q (w.sys.openWrite path).1 (w.withSys (w.sys.openWrite path).2) ∧
        (F.opens → Q none w) := by
  rw [ensures_sysCall]
  refine and_congr_right fun _ => ⟨fun h => ⟨h _ _ (Or.inl rfl), fun hf => ?_⟩, ?_⟩
  · exact h none w.sys (Or.inr ⟨hf, rfl, rfl⟩)
  · rintro ⟨hok, hfail⟩ r s' (hr | ⟨hf, rfl, rfl⟩)
    · rw [← hr] at hok
      exact hok
    · exact hfail hf

theorem ensures_close {fd : Fd} {Q : Unit → World → Prop} :
    Ensures (machine F lossy eof) A (sysCall (.close fd)) Q w ↔
      A w (.sys (.close fd)) ∧ Q () w := by
  rw [ensures_sysCall]
  refine and_congr_right fun _ => ⟨fun h => h () w.sys rfl, ?_⟩
  rintro h r s' rfl
  exact h

theorem ensures_read {fd : Fd} {len : Nat} {Q : Option (List UInt8) → World → Prop} :
    Ensures (machine F lossy eof) A (sysCall (.read fd len)) Q w ↔
      A w (.sys (.read fd len)) ∧
        (∀ r s', w.sys.ReadStep fd len r s' → Q r (w.withSys s')) ∧
        (F.reads → Q none w) := by
  rw [ensures_sysCall]
  refine and_congr_right fun _ => ⟨fun h => ⟨fun r s' hr => h r s' (Or.inl hr),
    fun hf => h none w.sys (Or.inr ⟨hf, rfl, rfl⟩)⟩, ?_⟩
  rintro ⟨hok, hfail⟩ r s' (hr | ⟨hf, rfl, rfl⟩)
  · exact hok r s' hr
  · exact hfail hf

theorem ensures_write {fd : Fd} {data : List UInt8} {Q : Option Nat → World → Prop} :
    Ensures (machine F lossy eof) A (sysCall (.write fd data)) Q w ↔
      A w (.sys (.write fd data)) ∧
        (∀ k, 0 < k → k ≤ data.length →
          Q (some k) (w.withSys (w.sys.write fd (data.take k)))) ∧
        (F.writes → Q none w) := by
  rw [ensures_sysCall]
  refine and_congr_right fun _ => ⟨fun h =>
    ⟨fun k h0 hk => h (some k) _ (Or.inl ⟨k, h0, hk, rfl, rfl⟩),
      fun hf => h none w.sys (Or.inr ⟨hf, rfl, rfl⟩)⟩, ?_⟩
  rintro ⟨hok, hfail⟩ r s' (⟨k, h0, hk, rfl, rfl⟩ | ⟨hf, rfl, rfl⟩)
  · exact hok k h0 hk
  · exact hfail hf

theorem ensures_stat {path : List UInt8} {Q : Option (Bool × Nat) → World → Prop} :
    Ensures (machine F lossy eof) A (sysCall (.stat path)) Q w ↔
      A w (.sys (.stat path)) ∧ ∀ r, w.sys.StatStep path r → Q r w := by
  rw [ensures_sysCall]
  refine and_congr_right fun _ => ⟨fun h r hr => h r w.sys ⟨hr, rfl⟩, ?_⟩
  rintro h r s' ⟨hr, rfl⟩
  exact h r hr

theorem ensures_realpath {path : List UInt8} {Q : Option (List UInt8) → World → Prop} :
    Ensures (machine F lossy eof) A (sysCall (.realpath path)) Q w ↔
      A w (.sys (.realpath path)) ∧ Q (w.sys.realpath path) w := by
  rw [ensures_sysCall]
  refine and_congr_right fun _ => ⟨fun h => h _ w.sys ⟨rfl, rfl⟩, ?_⟩
  rintro h r s' ⟨rfl, rfl⟩
  exact h

theorem ensures_opendir {path : List UInt8} {Q : Option (List Name) → World → Prop} :
    Ensures (machine F lossy eof) A (sysCall (.opendir path)) Q w ↔
      A w (.sys (.opendir path)) ∧ (∀ r, w.sys.OpendirStep path r → Q r w) ∧
        (F.opens → Q none w) := by
  rw [ensures_sysCall]
  refine and_congr_right fun _ => ⟨fun h => ⟨fun r hr => h r w.sys ⟨Or.inl hr, rfl⟩,
    fun hf => h none w.sys ⟨Or.inr ⟨hf, rfl⟩, rfl⟩⟩, ?_⟩
  rintro ⟨hok, hfail⟩ r s' ⟨hr | ⟨hf, rfl⟩, rfl⟩
  · exact hok r hr
  · exact hfail hf

theorem ensures_malloc {size : Nat} {Q : Bool → World → Prop} :
    Ensures (machine F lossy eof) A (sysCall (.malloc size)) Q w ↔
      A w (.sys (.malloc size)) ∧ Q true w ∧ (F.alloc → Q false w) := by
  rw [ensures_sysCall]
  refine and_congr_right fun _ => ⟨fun h => ⟨h true w.sys ⟨Or.inl rfl, rfl⟩,
    fun hf => h false w.sys ⟨Or.inr hf, rfl⟩⟩, ?_⟩
  rintro ⟨hok, hfail⟩ r s' ⟨rfl | hf, rfl⟩
  · exact hok
  · cases r with
    | true => exact hok
    | false => exact hfail hf

theorem ensures_print {line : Line} {Q : Unit → World → Prop} :
    Ensures (machine F lossy eof) A (sysCall (.print line)) Q w ↔
      A w (.sys (.print line)) ∧
        Q () (w.withSys { w.sys with printed := w.sys.printed ++ [line] }) := by
  rw [ensures_sysCall]
  refine and_congr_right fun _ => ⟨fun h => h () _ rfl, ?_⟩
  rintro h r s' rfl
  exact h

theorem ensures_eprint {line : Line} {Q : Unit → World → Prop} :
    Ensures (machine F lossy eof) A (sysCall (.eprint line)) Q w ↔
      A w (.sys (.eprint line)) ∧
        Q () (w.withSys { w.sys with errors := w.sys.errors ++ [line] }) := by
  rw [ensures_sysCall]
  refine and_congr_right fun _ => ⟨fun h => h () _ rfl, ?_⟩
  rintro h r s' rfl
  exact h

/-- A program that spins never gets to a result. -/
theorem ensures_outOfFuel {Q : α → World → Prop} :
    Ensures (machine F lossy eof) A outOfFuel Q w ↔ A w (.sys .spin) := by
  rw [outOfFuel, ensures_bind, ensures_sysCall]
  exact ⟨And.left, fun h => ⟨h, fun e => nomatch e⟩⟩

theorem ensures_netSend {data : List UInt8} {Q : Option Nat → World → Prop} :
    Ensures (machine F lossy eof) A (netSend data) Q w ↔
      A w (.send data) ∧
        (∀ k, 0 < k → k ≤ data.length → Q (some k) (w.sent (data.take k))) ∧
        (lossy → Q none w) :=
  Proc.ensures_send

theorem ensures_netRecv {room len : Nat} {Q : Option (List UInt8) → World → Prop} :
    Ensures (machine F lossy eof) A (netRecv room len) Q w ↔
      A w (.recv room len) ∧
        (∀ k, 0 < k → k ≤ len → k ≤ w.rx.length →
          Q (some (w.rx.take k)) (w.received k)) ∧
        (lossy ∨ (eof ∧ w.rx = []) → Q none w) :=
  Proc.ensures_recv

theorem ensures_netConnect {Q : Bool → World → Prop} :
    Ensures (machine F lossy eof) A netConnect Q w ↔
      A w .connect ∧ (∀ input, Q true (Proc.start w.sys input)) ∧ (lossy → Q false w) :=
  Proc.ensures_connect

theorem ensures_netClose {Q : Unit → World → Prop} :
    Ensures (machine F lossy eof) A netClose Q w ↔ A w .close ∧ Q () w :=
  Proc.ensures_close

end Rules

/-! ## Which calls have an answer -/

section Answers

variable {F : Faults} {lossy eof : Bool} {w : World}

theorem answered_sys {op : OsOp ρ} (h : ∃ r s', Sys.step F w.sys op r s') :
    Answered (machine F lossy eof) w (.sys op) := by
  obtain ⟨r, s', hr⟩ := h
  exact ⟨r, _, s', hr, rfl⟩

theorem answered_openRead (path : List UInt8) :
    Answered (machine F lossy eof) w (.sys (.openRead path)) :=
  answered_sys ⟨_, _, Or.inl rfl⟩

theorem answered_openWrite (path : List UInt8) :
    Answered (machine F lossy eof) w (.sys (.openWrite path)) :=
  answered_sys ⟨_, _, Or.inl rfl⟩

theorem answered_close (fd : Fd) : Answered (machine F lossy eof) w (.sys (.close fd)) :=
  answered_sys ⟨(), _, rfl⟩

theorem answered_malloc (size : Nat) :
    Answered (machine F lossy eof) w (.sys (.malloc size)) :=
  answered_sys ⟨true, _, Or.inl rfl, rfl⟩

theorem answered_read (fd : Fd) (len : Nat) :
    Answered (machine F lossy eof) w (.sys (.read fd len)) := by
  refine answered_sys ?_
  suffices h : ∃ r s', w.sys.ReadStep fd len r s' by
    obtain ⟨r, s', hr⟩ := h
    exact ⟨r, s', Or.inl hr⟩
  unfold Sys.ReadStep
  split
  · split <;> exact ⟨_, _, rfl, rfl⟩
  · split
    · exact ⟨_, _, rfl, rfl⟩
    · rename_i rest _
      split
      · exact ⟨_, _, rfl, rfl⟩
      · rename_i hne
        rw [not_or] at hne
        have hlen : 0 < rest.length := List.length_pos_iff.mpr hne.2
        exact ⟨_, _, 1, by omega, by omega, by omega, rfl, rfl⟩

theorem answered_write (fd : Fd) {data : List UInt8} (h : data ≠ []) :
    Answered (machine F lossy eof) w (.sys (.write fd data)) := by
  have hlen : 0 < data.length := List.length_pos_iff.mpr h
  exact answered_sys ⟨_, _, Or.inl ⟨1, by omega, by omega, rfl, rfl⟩⟩

theorem answered_send {data : List UInt8} (h : data ≠ []) :
    Answered (machine F lossy eof) w (.send data) := by
  have hlen : 0 < data.length := List.length_pos_iff.mpr h
  exact ⟨_, _, Or.inl ⟨1, by omega, by omega, rfl, rfl⟩⟩

theorem answered_recv {room len : Nat} (hlen : 0 < len) (h : w.rx ≠ [] ∨ eof) :
    Answered (machine F lossy eof) w (.recv room len) := by
  by_cases hrx : w.rx = []
  · have heof : eof = true := h.resolve_left (fun hne => hne hrx)
    exact ⟨none, w, Or.inr ⟨Or.inr ⟨heof, hrx⟩, rfl, rfl⟩⟩
  · have hpos : 0 < w.rx.length := List.length_pos_iff.mpr hrx
    exact ⟨_, _, Or.inl ⟨1, by omega, by omega, by omega, rfl, rfl⟩⟩

theorem exists_statStep (path : List UInt8) :
    ∃ r s', Sys.step F w.sys (.stat path) r s' := by
  suffices h : ∃ r, w.sys.StatStep path r by
    obtain ⟨r, hr⟩ := h
    exact ⟨r, w.sys, hr, rfl⟩
  unfold Sys.StatStep
  split
  · exact ⟨_, rfl⟩
  · split
    · exact ⟨_, 0, by decide, rfl⟩
    · split <;> exact ⟨_, rfl⟩
    · exact ⟨_, rfl⟩

theorem answered_mkdir (path : List UInt8) :
    Answered (machine F lossy eof) w (.sys (.mkdir path)) :=
  answered_sys ⟨_, _, Or.inl rfl⟩

theorem answered_stat (path : List UInt8) :
    Answered (machine F lossy eof) w (.sys (.stat path)) :=
  answered_sys (exists_statStep path)

theorem answered_realpath (path : List UInt8) :
    Answered (machine F lossy eof) w (.sys (.realpath path)) :=
  answered_sys ⟨_, _, rfl, rfl⟩

theorem answered_opendir (path : List UInt8) :
    Answered (machine F lossy eof) w (.sys (.opendir path)) := by
  suffices h : ∃ r, w.sys.OpendirStep path r by
    obtain ⟨r, hr⟩ := h
    exact answered_sys ⟨r, _, Or.inl hr, rfl⟩
  unfold Sys.OpendirStep
  split
  · exact ⟨_, rfl⟩
  · split
    · exact ⟨_, _, List.Perm.refl _, rfl⟩
    · exact ⟨_, rfl⟩

end Answers

/-- A guard that asks nothing of the calls that name no path, nor of a send.  What it
asks of a receive, of a path or of a program that spins is left open. -/
structure Permits (A : Guard (NetOp OsOp) World) : Prop where
  send : ∀ w data, data ≠ [] → A w (.send data)
  close : ∀ w, A w .close
  read : ∀ w fd len, A w (.sys (.read fd len))
  write : ∀ w fd data, data ≠ [] → A w (.sys (.write fd data))
  closeFd : ∀ w fd, A w (.sys (.close fd))
  malloc : ∀ w n, A w (.sys (.malloc n))
  print : ∀ w line, A w (.sys (.print line))
  eprint : ∀ w line, A w (.sys (.eprint line))

theorem permits_anything : Permits Anything :=
  ⟨fun _ _ _ => trivial, fun _ => trivial, fun _ _ _ => trivial, fun _ _ _ _ => trivial,
    fun _ _ => trivial, fun _ _ => trivial, fun _ _ => trivial, fun _ _ => trivial⟩

/-- These calls always have an answer. -/
theorem permits_answered (F : Faults) (lossy eof : Bool) :
    Permits (Answered (machine F lossy eof)) where
  send _ _ h := answered_send h
  close w := ⟨(), w, rfl⟩
  read _ fd len := answered_read fd len
  write _ fd _ h := answered_write fd h
  closeFd _ fd := answered_close fd
  malloc _ n := answered_malloc n
  print _ _ := answered_sys ⟨(), _, rfl⟩
  eprint _ _ := answered_sys ⟨(), _, rfl⟩

/-! ## Where nothing fails -/

/-- What may happen where nothing fails may happen anywhere. -/
theorem Sys.step_of_none {F : Faults} {s s' : Sys} {op : OsOp ρ} {r : ρ}
    (h : Sys.step Faults.none s op r s') : Sys.step F s op r s' := by
  cases op with
  | openRead p => exact h.elim Or.inl fun h => absurd h.1 (by decide)
  | openWrite p => exact h.elim Or.inl fun h => absurd h.1 (by decide)
  | mkdir p => exact h.elim Or.inl fun h => absurd h.1 (by decide)
  | read fd len => exact h.elim Or.inl fun h => absurd h.1 (by decide)
  | write fd data => exact h.elim Or.inl fun h => absurd h.1 (by decide)
  | opendir p => exact ⟨Or.inl (h.1.elim id fun h => absurd h.1 (by decide)), h.2⟩
  | malloc n => exact ⟨Or.inl (h.1.elim id fun h => absurd h (by decide)), h.2⟩
  | close fd => exact h
  | stat p => exact h
  | realpath p => exact h
  | print line => exact h
  | eprint line => exact h
  | spin => exact h

theorem machine_of_none {F : Faults} {lossy eof : Bool} {w w' : World} {op : NetOp OsOp ρ}
    {r : ρ} (h : machine Faults.none false eof w op r w') : machine F lossy eof w op r w' := by
  cases op with
  | connect => exact h.elim Or.inl fun h => absurd h.1 (by decide)
  | send data => exact h.elim Or.inl fun h => absurd h.1 (by decide)
  | recv room len =>
    rcases h with h | ⟨h | h, hr⟩
    · exact Or.inl h
    · exact absurd h (by decide)
    · exact Or.inr ⟨Or.inr h, hr⟩
  | close => exact h
  | sys op =>
    obtain ⟨s', hs, hw⟩ := h
    exact ⟨s', Sys.step_of_none hs, hw⟩

/-! ## What a lookup says -/

namespace Sys

variable {s : Sys} {path : List UInt8} {size : Nat}

/-- The size that is reported for a file with the inode `i`. -/
def sizeOf (s : Sys) (i : Nat) : Nat :=
  match s.script with
  | some sc => sc.size
  | none => (s.fs.data i).length

theorem statStep_dir (h : s.StatStep path (some (true, size))) :
    ∃ l, s.resolve path = some l ∧ s.fs.node l = some .dir := by
  unfold StatStep at h
  cases hl : s.resolve path with
  | none => simp [hl] at h
  | some l =>
    refine ⟨l, rfl, ?_⟩
    cases hn : s.fs.node l with
    | none => simp [hl, hn] at h
    | some nd =>
      cases nd with
      | dir => rfl
      | link t => simp [hl, hn] at h
      | file i => cases hs : s.script <;> simp [hl, hn, hs] at h

theorem statStep_file (h : s.StatStep path (some (false, size))) :
    ∃ l i, s.resolve path = some l ∧ s.fs.node l = some (.file i) ∧ size = s.sizeOf i := by
  unfold StatStep at h
  unfold sizeOf
  cases hl : s.resolve path with
  | none => simp [hl] at h
  | some l =>
    cases hn : s.fs.node l with
    | none => simp [hl, hn] at h
    | some nd =>
      cases nd with
      | dir => simp [hl, hn] at h
      | link t => simp [hl, hn] at h
      | file i =>
        refine ⟨l, i, rfl, hn, ?_⟩
        cases hs : s.script <;> simpa [hl, hn, hs] using h

/-- What `stat` does not find is no file and no directory. -/
theorem statStep_none (h : s.StatStep path none) {l : Loc} (hl : s.resolve path = some l) :
    s.fs.node l ≠ some .dir ∧ ∀ i, s.fs.node l ≠ some (.file i) := by
  unfold StatStep at h
  rw [hl] at h
  constructor
  · intro hn
    simp [hn] at h
  · intro i hn
    cases hs : s.script <;> simp [hn, hs] at h

end Sys

/-! ## Writing -/

theorem splice_nil (d : List UInt8) (p : Nat) : splice d p [] = d := if_pos rfl

/-- Writing at the end appends. -/
theorem splice_length (d bs : List UInt8) : splice d d.length bs = d ++ bs := by
  unfold splice
  split
  · simp [*]
  · simp

/-- Two writes in a row are one. -/
theorem splice_splice (d a b : List UInt8) (p : Nat) :
    splice (splice d p a) (p + a.length) b = splice d p (a ++ b) := by
  by_cases ha : a = []
  · simp [ha, splice_nil]
  by_cases hb : b = []
  · simp [hb, splice_nil]
  have hab : a ++ b ≠ [] := by simp [ha]
  have hhead : (d.take p ++ List.replicate (p - d.length) 0).length = p := by
    rw [List.length_append, List.length_take, List.length_replicate]
    omega
  have hpre : (d.take p ++ List.replicate (p - d.length) 0 ++ a).length = p + a.length := by
    rw [List.length_append, hhead]
  unfold splice
  rw [if_neg ha, if_neg hb, if_neg hab]
  have htake : (d.take p ++ List.replicate (p - d.length) 0 ++ a ++
      d.drop (p + a.length)).take (p + a.length) =
        d.take p ++ List.replicate (p - d.length) 0 ++ a := by
    rw [← hpre, List.take_left]
  have hdrop : (d.take p ++ List.replicate (p - d.length) 0 ++ a ++
      d.drop (p + a.length)).drop (p + a.length + b.length) =
        d.drop (p + (a ++ b).length) := by
    rw [List.drop_append, hpre, List.drop_eq_nil_of_le (by omega), List.drop_drop,
      List.nil_append, List.length_append]
    congr 1
    omega
  have hgap : p + a.length - (d.take p ++ List.replicate (p - d.length) 0 ++ a ++
      d.drop (p + a.length)).length = 0 := by
    rw [List.length_append, hpre]
    omega
  rw [htake, hdrop, hgap]
  simp

theorem FS.setData_setData (fs : FS) (i : Nat) (a b : List UInt8) :
    (fs.setData i a).setData i b = fs.setData i b := by
  unfold FS.setData
  congr 1
  funext j
  by_cases h : j = i <;> simp [h]

@[simp] theorem FS.setData_self (fs : FS) (i : Nat) : fs.setData i (fs.data i) = fs := by
  unfold FS.setData
  congr 1
  funext j
  by_cases h : j = i <;> simp [h]

namespace Sys

@[simp] theorem write_nil (s : Sys) (fd : Fd) : s.write fd [] = s := by
  unfold write
  split
  · rfl
  · rename_i i hi
    have hpos : (fun k => if k = fd.id then s.pos fd.id + ([] : List UInt8).length
        else s.pos k) = s.pos := by
      funext k
      by_cases h : k = fd.id <;> simp [h]
    rw [splice_nil, FS.setData_self, hpos]

theorem write_write (s : Sys) (fd : Fd) (a b : List UInt8) :
    (s.write fd a).write fd b = s.write fd (a ++ b) := by
  cases hi : fd.ino with
  | none => simp only [write, hi]
  | some i =>
    simp only [write, hi, if_true, FS.data_setData_self, FS.setData_setData,
      splice_splice, List.length_append, Nat.add_assoc]
    congr 1
    funext k
    by_cases h : k = fd.id <;> simp [h]

end Sys

/-! ## The file system grows -/

theorem FS.grows_makeDir (fs : FS) (l : Loc) : fs.Grows (fs.makeDir l) := by
  unfold FS.makeDir
  split
  · exact FS.grows_insert _ (fun t => by simp)
  · exact FS.Grows.refl fs

theorem FS.grows_makeFile (fs : FS) (l : Loc) : fs.Grows (fs.makeFile l) := by
  unfold FS.makeFile
  split
  · exact (FS.grows_insert _ (fun t => by simp)).trans (FS.grows_setData _ _ _)
  · exact FS.Grows.refl fs

namespace Sys

variable (s : Sys) (path : List UInt8)

@[simp] theorem newFd_fs (ino : Option Nat) : (s.newFd ino).2.fs = s.fs := rfl

theorem openRead_fs : (s.openRead path).2.fs = s.fs := by
  unfold openRead
  split
  · rfl
  · split <;> rfl

theorem grows_openWrite : s.fs.Grows (s.openWrite path).2.fs := by
  unfold openWrite
  split
  · exact FS.Grows.refl _
  · split
    · exact FS.grows_setData _ _ _
    · split
      · exact FS.grows_makeFile _ _
      · exact FS.Grows.refl _
    · exact FS.Grows.refl _

theorem grows_mkdir : s.fs.Grows (s.mkdir path).2.fs := by
  unfold mkdir
  split
  · exact FS.Grows.refl _
  · split
    · exact FS.Grows.refl _
    · split
      · exact FS.Grows.refl _
      · split
        · exact FS.grows_makeDir _ _
        · exact FS.Grows.refl _

theorem grows_write (fd : Fd) (bs : List UInt8) : s.fs.Grows (s.write fd bs).fs := by
  unfold write
  split
  · exact FS.Grows.refl _
  · exact FS.grows_setData _ _ _

/-- `s'` differs from `s` at most in how far the open files have been read. -/
structure OnlyRead (s s' : Sys) : Prop where
  fs : s'.fs = s.fs
  cwd : s'.cwd = s.cwd
  nextFd : s'.nextFd = s.nextFd
  printed : s'.printed = s.printed
  errors : s'.errors = s.errors

theorem OnlyRead.refl (s : Sys) : s.OnlyRead s := ⟨rfl, rfl, rfl, rfl, rfl⟩

theorem OnlyRead.trans {a b c : Sys} (h : a.OnlyRead b) (h' : b.OnlyRead c) :
    a.OnlyRead c :=
  ⟨h'.fs.trans h.fs, h'.cwd.trans h.cwd, h'.nextFd.trans h.nextFd,
    h'.printed.trans h.printed, h'.errors.trans h.errors⟩

theorem onlyRead_of_readStep {s s' : Sys} {fd : Fd} {len : Nat} {r : Option (List UInt8)}
    (h : s.ReadStep fd len r s') : s.OnlyRead s' := by
  unfold ReadStep at h
  split at h
  · split at h <;> rw [h.2] <;> exact ⟨rfl, rfl, rfl, rfl, rfl⟩
  · split at h
    · rw [h.2]
      exact OnlyRead.refl s
    · split at h
      · rw [h.2]
        exact OnlyRead.refl s
      · obtain ⟨k, -, -, -, -, rfl⟩ := h
        exact ⟨rfl, rfl, rfl, rfl, rfl⟩

/-- **Every call lets the file system grow.**  What is said of a file system in one state and
used in a later one rests on this. -/
theorem grows_of_step {F : Faults} {s s' : Sys} {op : OsOp ρ} {r : ρ}
    (h : step F s op r s') : s.fs.Grows s'.fs := by
  cases op with
  | openRead p =>
    rcases h with h | ⟨-, -, rfl⟩
    · rw [show s' = (s.openRead p).2 from congrArg Prod.snd h, openRead_fs]
      exact FS.Grows.refl _
    · exact FS.Grows.refl _
  | openWrite p =>
    rcases h with h | ⟨-, -, rfl⟩
    · rw [show s' = (s.openWrite p).2 from congrArg Prod.snd h]
      exact grows_openWrite s p
    · exact FS.Grows.refl _
  | mkdir p =>
    rcases h with h | ⟨-, -, rfl⟩
    · rw [show s' = (s.mkdir p).2 from congrArg Prod.snd h]
      exact grows_mkdir s p
    · exact FS.Grows.refl _
  | read fd len =>
    rcases h with h | ⟨-, -, rfl⟩
    · rw [(onlyRead_of_readStep h).fs]
      exact FS.Grows.refl _
    · exact FS.Grows.refl _
  | write fd data =>
    rcases h with ⟨k, -, -, -, rfl⟩ | ⟨-, -, rfl⟩
    · exact grows_write s fd _
    · exact FS.Grows.refl _
  | close fd => rw [show s' = s from h]; exact FS.Grows.refl _
  | stat p => rw [h.2]; exact FS.Grows.refl _
  | realpath p => rw [h.2]; exact FS.Grows.refl _
  | opendir p => rw [h.2]; exact FS.Grows.refl _
  | malloc n => rw [h.2]; exact FS.Grows.refl _
  | print line => rw [show s' = _ from h]; exact FS.Grows.refl _
  | eprint line => rw [show s' = _ from h]; exact FS.Grows.refl _
  | spin => exact h.elim

end Sys

/-- So it does over a whole run. -/
theorem grows_of_reaches {F : Faults} {lossy eof : Bool} {p q : Prog α} {w v : World}
    (h : Reaches (machine F lossy eof) p w q v) : w.sys.fs.Grows v.sys.fs := by
  induction h with
  | refl => exact FS.Grows.refl _
  | @step ρ op k w w' v r q hr _ ih =>
    refine FS.Grows.trans ?_ ih
    cases op with
    | connect => rcases hr with ⟨-, input, rfl⟩ | ⟨-, -, rfl⟩ <;> exact FS.Grows.refl _
    | send data => rcases hr with ⟨k, -, -, -, rfl⟩ | ⟨-, -, rfl⟩ <;> exact FS.Grows.refl _
    | recv room len => rcases hr with ⟨k, -, -, -, -, rfl⟩ | ⟨-, -, rfl⟩ <;> exact FS.Grows.refl _
    | close =>
      obtain rfl : w' = w := hr
      exact FS.Grows.refl _
    | sys op =>
      obtain ⟨s', hs, rfl⟩ := hr
      exact Sys.grows_of_step hs

/-! ## Directories that are added -/

/-- `fs'` is `fs` with some directories added. -/
structure FS.DirsAdded (fs fs' : FS) : Prop where
  grows : fs.Grows fs'
  data : fs'.data = fs.data
  fresh : fs'.fresh = fs.fresh
  new : ∀ l nd, fs'.node l = some nd → fs.node l = some nd ∨ (fs.node l = none ∧ nd = .dir)

theorem FS.DirsAdded.refl (fs : FS) : fs.DirsAdded fs :=
  ⟨FS.Grows.refl fs, rfl, rfl, fun _ _ h => Or.inl h⟩

theorem FS.DirsAdded.trans {a b c : FS} (h : a.DirsAdded b) (h' : b.DirsAdded c) :
    a.DirsAdded c := by
  refine ⟨h.grows.trans h'.grows, h'.data.trans h.data, h'.fresh.trans h.fresh, ?_⟩
  intro l nd hl
  rcases h'.new l nd hl with hl | ⟨hnone, rfl⟩
  · exact h.new l nd hl
  · cases ha : a.node l with
    | none => exact Or.inr ⟨rfl, rfl⟩
    | some nd' => exact absurd ((h.grows.keep l nd' ha).symm.trans hnone) (by simp)

theorem FS.dirsAdded_makeDir (fs : FS) (l : Loc) : fs.DirsAdded (fs.makeDir l) := by
  unfold FS.makeDir
  split
  · rename_i hins
    refine ⟨FS.grows_insert hins (by simp), rfl, rfl, fun k nd hk => ?_⟩
    rw [FS.node_insert] at hk
    split at hk
    · rename_i hkl
      subst hkl
      obtain rfl := Option.some.inj hk
      refine Or.inr ⟨?_, rfl⟩
      cases k with
      | nil => exact hins.elim
      | cons n p => exact hins.2.2.1
    · exact Or.inl hk
  · exact FS.DirsAdded.refl fs

/-- A regular file is where it was. -/
theorem FS.DirsAdded.file {fs fs' : FS} (h : fs.DirsAdded fs') {l : Loc} {i : Nat} :
    fs'.node l = some (.file i) ↔ fs.node l = some (.file i) := by
  constructor
  · intro hl
    rcases h.new l _ hl with hl | ⟨-, hl⟩
    · exact hl
    · exact absurd hl (by simp)
  · exact h.grows.keep l _

theorem FS.DirsAdded.contents {fs fs' : FS} (h : fs.DirsAdded fs') (l : Loc) :
    fs'.contents l = fs.contents l := by
  refine Option.ext fun bs => ?_
  rw [FS.contents_eq_some, FS.contents_eq_some, h.data]
  simp only [h.file]

/-- All that has changed is that directories have been added. -/
def Sys.DirsAdded (s s' : Sys) : Prop := ∃ fs, s.fs.DirsAdded fs ∧ s' = { s with fs := fs }

theorem Sys.DirsAdded.refl (s : Sys) : s.DirsAdded s := ⟨s.fs, FS.DirsAdded.refl _, rfl⟩

theorem Sys.DirsAdded.trans {a b c : Sys} (h : a.DirsAdded b) (h' : b.DirsAdded c) :
    a.DirsAdded c := by
  obtain ⟨fs, hfs, rfl⟩ := h
  obtain ⟨fs', hfs', rfl⟩ := h'
  exact ⟨fs', hfs.trans hfs', rfl⟩

theorem Sys.DirsAdded.fs {s s' : Sys} (h : s.DirsAdded s') : s.fs.DirsAdded s'.fs := by
  obtain ⟨fs, hfs, rfl⟩ := h
  exact hfs

theorem Sys.DirsAdded.cwd {s s' : Sys} (h : s.DirsAdded s') : s'.cwd = s.cwd := by
  obtain ⟨fs, -, rfl⟩ := h
  rfl

end Posix
end IsrTransfer
