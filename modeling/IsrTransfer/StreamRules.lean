import IsrTransfer.Stream

/-!
# What the four loops do

Each loop of the data stream gets one rule.  A sender's rule is stated over the
results of its reads (`ReadRun`), a receiver's over the blocks it has taken off the
stream (`Blocks`); both then say exactly which bytes have been sent or received,
which have been written, and what is returned.

The rules hold for any guard that leaves the plain calls alone.  What it says of
the receives, and of a loop that has used up its fuel, is for the caller to show.

## Senders

A sender has as many ways to go as there are sequences of reads, and the rule gives them all to
its caller, who knows the file or the script.  The checksum is kept by the loop as a word of 64
bits and returned as a number with a sign; on the wire there are the eight bytes of the word
(`checksumOf`).  For a file of less than `2 ^ 55` bytes they are all the sum of its bytes
(`toInt64_checksumOf`), and for others nothing is claimed here.

## Receivers

A receiver can stop after any byte, because the stream ends or something fails.  What has to be
shown for each of these moments is collected in a structure (`UncompressedCases`,
`CompressedCases`), which is stated for the middle of the loop: what has been taken so far, and
what remains.  One turn of the loop leads from such a structure to another
(`UncompressedCases.next`, `CompressedCases.next`), so that the induction is on the bound of the
loop and the caller never sees it.

The state in which a receiver is after it has taken something is a function of what it has
written and of how many bytes it has received (`taken`).  With its simp lemmas two steps become
one.
-/

namespace IsrTransfer

open Effect Posix

variable {F : Faults} {lossy eof : Bool} {A : Guard (NetOp OsOp) World}

/-! ## Reading

What the reads of a loop have given is a list of chunks.  For a file it is a cut of the content
into pieces, for a script what the script says. -/

/-- Reads of at most `len` bytes, one after the other: `chunks` came back, none of
them empty. -/
inductive ReadRun (fd : Fd) (len : Nat) : Sys → List (List UInt8) → Sys → Prop where
  | nil (s : Sys) : ReadRun fd len s [] s
  | cons {s s' s'' : Sys} {c : List UInt8} {cs : List (List UInt8)} :
      s.ReadStep fd len (some c) s' → c ≠ [] → ReadRun fd len s' cs s'' →
        ReadRun fd len s (c :: cs) s''

/-- How the reads may end: at the end of the file. -/
def ReadEnd (fd : Fd) (len : Nat) (s s' : Sys) : Prop := s.ReadStep fd len (some []) s'

def ReadError (F : Faults) (fd : Fd) (len : Nat) (s s' : Sys) : Prop :=
  s.ReadStep fd len none s' ∨ (F.reads ∧ s' = s)

/-- Reading changes nothing but positions. -/
theorem ReadRun.onlyRead {fd : Fd} {len : Nat} {s s' : Sys} {cs : List (List UInt8)}
    (h : ReadRun fd len s cs s') : s.OnlyRead s' := by
  induction h with
  | nil s => exact Sys.OnlyRead.refl s
  | cons hr _ _ ih => exact (Sys.onlyRead_of_readStep hr).trans ih

theorem ReadError.onlyRead {fd : Fd} {len : Nat} {s s' : Sys}
    (h : ReadError F fd len s s') : s.OnlyRead s' := by
  rcases h with h | ⟨-, rfl⟩
  · exact Sys.onlyRead_of_readStep h
  · exact Sys.OnlyRead.refl _

/-- Neither does the read that ends them. -/
theorem onlyRead_of_stop {fd : Fd} {len : Nat} {s s' : Sys}
    (h : ReadEnd fd len s s' ∨ ReadError F fd len s s') : s.OnlyRead s' :=
  h.elim Sys.onlyRead_of_readStep ReadError.onlyRead

theorem ReadRun.mem {fd : Fd} {len : Nat} {s s' : Sys} {cs : List (List UInt8)}
    (h : ReadRun fd len s cs s') : ∀ c ∈ cs, c ≠ [] ∧ c.length ≤ len := by
  induction h with
  | nil s => simp
  | @cons s s' s'' c cs hr hne _ ih =>
    intro d hd
    rcases List.mem_cons.mp hd with rfl | hd
    · refine ⟨hne, ?_⟩
      unfold Sys.ReadStep at hr
      split at hr
      · split at hr
        · exact absurd (Option.some.inj hr.1) hne
        · rename_i x xs _
          obtain ⟨y, -, hy⟩ := Option.map_eq_some_iff.mp hr.1.symm
          rw [← hy, List.length_take]
          exact Nat.min_le_left _ _
      · split at hr
        · exact absurd hr.1 (by simp)
        · split at hr
          · exact absurd (Option.some.inj hr.1) hne
          · obtain ⟨k, -, hk, -, hd, -⟩ := hr
            rw [Option.some.inj hd, List.length_take]
            omega
    · exact ih d hd

theorem unread_advance (s : Sys) (fd : Fd) (n : Nat) :
    (s.advance fd n).unread fd = (s.unread fd).map (List.drop n) := by
  unfold Sys.unread Sys.advance
  cases fd.ino with
  | none => rfl
  | some i => simp

/-- How many reads of an open file can give data. -/
def readsLeft (s : Sys) (fd : Fd) : Nat :=
  match s.script with
  | some sc => sc.reads.length
  | none => ((s.unread fd).getD []).length

/-- A read that gives data is one read less. -/
theorem readsLeft_lt {s s' : Sys} {fd : Fd} {len : Nat} {c : List UInt8}
    (h : s.ReadStep fd len (some c) s') (hne : c ≠ []) : readsLeft s' fd < readsLeft s fd := by
  unfold Sys.ReadStep at h
  split at h
  · rename_i sc hsc
    split at h
    · exact absurd (Option.some.inj h.1) hne
    · rename_i x xs hreads
      obtain ⟨-, rfl⟩ := h
      simp [readsLeft, hsc, hreads]
  · rename_i hsc
    split at h
    · exact absurd h.1 (by simp)
    · rename_i rest hrest
      split at h
      · exact absurd (Option.some.inj h.1) hne
      · obtain ⟨k, hk, -, hle, -, rfl⟩ := h
        have hsc' : (s.advance fd k).script = none := hsc
        unfold readsLeft
        rw [hsc, hsc']
        simp only
        rw [unread_advance, hrest, Option.map_some, Option.getD_some, Option.getD_some,
          List.length_drop]
        omega

theorem ReadRun.length_le_readsLeft {s s' : Sys} {fd : Fd} {len : Nat} {cs : List (List UInt8)}
    (h : ReadRun fd len s cs s') : cs.length ≤ readsLeft s fd := by
  induction h with
  | nil s => exact Nat.zero_le _
  | cons hr hne _ ih =>
    have hlt := readsLeft_lt hr hne
    rw [List.length_cons]
    omega

/-! ## Sending

The senders are followed chunk by chunk.  The rule is stated for the middle of the loop, with
what has been sent so far as a parameter. -/

/-- The checksum of data that has been streamed. -/
def checksumOf (data : List UInt8) : Nat := byteSum data % word64

theorem checksumOf_lt (data : List UInt8) : checksumOf data < 256 ^ 8 :=
  Nat.mod_lt _ (by decide)

/-- The checksum on the wire is the one that the other side computes. -/
theorem ofBe_checksumOf (data : List UInt8) :
    ofBe (toBe 8 (checksumOf data)) = isrCountByteValues data := by
  rw [ofBe_toBe_of_lt (checksumOf_lt data), checksumOf, isrCountByteValues_eq]

/-- One more piece of data adds to the checksum. -/
theorem checksumOf_append (a b : List UInt8) :
    (checksumOf a + isrCountByteValues b) % word64 = checksumOf (a ++ b) := by
  rw [isrCountByteValues_eq, checksumOf, checksumOf, byteSum_append, ← Nat.add_mod]

/-- A byte sum below `2 ^ 63` is returned as it is. -/
theorem toInt64_checksumOf {data : List UInt8} (h : data.length < 2 ^ 55) :
    checksumOf data = byteSum data ∧ toInt64 (checksumOf data) = byteSum data := by
  have hle := byteSum_le data
  have hsum : checksumOf data = byteSum data := Nat.mod_eq_of_lt (by unfold word64; omega)
  refine ⟨hsum, ?_⟩
  rw [hsum, toInt64, if_pos (by omega)]

/-- The stream that carries data as it is. -/
def plainStream (data : List UInt8) : List UInt8 := data ++ toBe 8 (checksumOf data)

/-- The rule for `isr_transmit_file_uncompressed`, in the middle of the loop: `done`
has been sent. -/
theorem ensures_isrTransmitFileUncompressedLoop (hP : Permits A) {fd : Fd}
    {Q : Int → World → Prop} : ∀ (fuel : Nat) {done : List UInt8} {w : World},
    (∀ cs s, ReadRun fd isrIoBufsize w.sys cs s → cs.length = fuel →
      A ((w.withSys s).sent cs.flatten) (.sys .spin)) →
    (∀ cs s s', ReadRun fd isrIoBufsize w.sys cs s → ReadEnd fd isrIoBufsize s s' →
      Q (toInt64 (checksumOf (done ++ cs.flatten)))
        ((w.withSys s').sent (cs.flatten ++ toBe 8 (checksumOf (done ++ cs.flatten))))) →
    (∀ cs s s', ReadRun fd isrIoBufsize w.sys cs s → ReadError F fd isrIoBufsize s s' →
      Q (-1) ((w.withSys s').sent cs.flatten)) →
    (lossy → ∀ cs s data, ReadRun fd isrIoBufsize w.sys cs s → data <+: cs.flatten →
      Q (-1) ((w.withSys s).sent data)) →
    (lossy → ∀ cs s s' data, ReadRun fd isrIoBufsize w.sys cs s →
      ReadEnd fd isrIoBufsize s s' → Q (-1) ((w.withSys s').sent data)) →
    Ensures (machine F lossy eof) A
      (isrTransmitFileUncompressedLoop fd fuel (checksumOf done)) Q w := by
  intro fuel
  induction fuel with
  | zero =>
    intro done w hspin _ _ _ _
    have h := hspin [] w.sys (.nil _) rfl
    rw [Proc.withSys_self, List.flatten_nil, Proc.sent_nil] at h
    exact ensures_outOfFuel.mpr h
  | succ fuel ih =>
    intro done w hspin hend herr hloss hlossEnd
    rw [isrTransmitFileUncompressedLoop, ensures_bind, ensures_read]
    refine ⟨hP.read _ _ _, fun r s' hr => ?_, fun hf => ?_⟩
    · rcases r with - | - | ⟨b, buffer⟩
      · -- a failed read ends the loop without a checksum
        have h := herr [] w.sys s' (.nil _) (Or.inl hr)
        rw [List.flatten_nil, Proc.sent_nil] at h
        exact h
      · have h := hend [] w.sys s' (.nil _) hr
        rw [List.flatten_nil, List.append_nil, List.nil_append] at h
        simp only [ensures_bind]
        refine ensures_netSendExact (fun k hk => hP.send _ _ (by simpa using hk)) h ?_
        exact fun k _ hl => hlossEnd hl [] w.sys s' _ (.nil _) hr
      · -- one more chunk: the rest of the loop starts with it done
        have hne : b :: buffer ≠ [] := List.cons_ne_nil _ _
        simp only [ensures_bind, checksumOf_append]
        refine ensures_netSendExact (fun k hk => hP.send _ _ (by simpa using hk)) ?_ ?_
        · refine ih ?_ ?_ ?_ ?_ ?_
          · intro cs s hrun hlen
            have h := hspin ((b :: buffer) :: cs) s (.cons hr hne hrun) (by simp [hlen])
            simpa using h
          · intro cs s s'' hrun he
            have h := hend ((b :: buffer) :: cs) s s'' (.cons hr hne hrun) he
            simpa using h
          · intro cs s s'' hrun he
            have h := herr ((b :: buffer) :: cs) s s'' (.cons hr hne hrun) he
            simpa using h
          · intro hl cs s data hrun hdata
            have h := hloss hl ((b :: buffer) :: cs) s (b :: buffer ++ data)
              (.cons hr hne hrun) (List.prefix_append_right_inj _ |>.mpr hdata)
            simpa using h
          · intro hl cs s s'' data hrun he
            have h := hlossEnd hl ((b :: buffer) :: cs) s s'' (b :: buffer ++ data)
              (.cons hr hne hrun) he
            simpa using h
        · intro k _ hl
          refine hloss hl [b :: buffer] s' _ (.cons hr hne (.nil _)) ?_
          rw [List.flatten_singleton]
          exact List.take_prefix _ _
    · have h := herr [] w.sys w.sys (.nil _) (Or.inr ⟨hf, rfl⟩)
      rw [List.flatten_nil, Proc.sent_nil, Proc.withSys_self] at h
      exact h

/-- The compressed form of one chunk. -/
def compressed (L : Lz4) (blockSize : Nat) (c : List UInt8) : List UInt8 :=
  L.compressDefault c (lz4CompressBound blockSize)

/-- A block on the wire: the compressed length, and the compressed bytes. -/
def frame (L : Lz4) (blockSize : Nat) (c : List UInt8) : List UInt8 :=
  toBe 4 (compressed L blockSize c).length ++ compressed L blockSize c

/-- The blocks for a sequence of chunks. -/
def frames (L : Lz4) (blockSize : Nat) (cs : List (List UInt8)) : List UInt8 :=
  (cs.map (frame L blockSize)).flatten

@[simp] theorem frames_nil (L : Lz4) (blockSize : Nat) : frames L blockSize [] = [] := rfl

@[simp] theorem frames_cons (L : Lz4) (blockSize : Nat) (c : List UInt8)
    (cs : List (List UInt8)) :
    frames L blockSize (c :: cs) = frame L blockSize c ++ frames L blockSize cs := rfl

def Compress (L : Lz4) (blockSize : Nat) (cs : List (List UInt8)) : Prop :=
  ∀ c ∈ cs, compressed L blockSize c ≠ []

/-- The rule for `isr_transmit_file_compressed`, in the middle of the loop.  A
failed read ends it like the end of the file. -/
theorem ensures_isrTransmitFileCompressedLoop (L : Lz4) (hP : Permits A) {fd : Fd}
    {blockSize : Nat} {Q : Int → World → Prop} :
    ∀ (fuel : Nat) {done : List UInt8} {w : World},
    (∀ cs s, ReadRun fd blockSize w.sys cs s → Compress L blockSize cs →
      cs.length = fuel → A ((w.withSys s).sent (frames L blockSize cs)) (.sys .spin)) →
    (∀ cs s s', ReadRun fd blockSize w.sys cs s → Compress L blockSize cs →
      (ReadEnd fd blockSize s s' ∨ ReadError F fd blockSize s s') →
      Q (toInt64 (checksumOf (done ++ cs.flatten)))
        ((w.withSys s').sent
          (frames L blockSize cs ++ toBe 8 (checksumOf (done ++ cs.flatten))))) →
    (∀ cs c s, ReadRun fd blockSize w.sys (cs ++ [c]) s → Compress L blockSize cs →
      compressed L blockSize c = [] →
      Q (-1) ((w.withSys s).sent (frames L blockSize cs))) →
    (lossy → ∀ cs s data, ReadRun fd blockSize w.sys cs s → data <+: frames L blockSize cs →
      Q (-1) ((w.withSys s).sent data)) →
    (lossy → ∀ cs s s' data, ReadRun fd blockSize w.sys cs s → Compress L blockSize cs →
      (ReadEnd fd blockSize s s' ∨ ReadError F fd blockSize s s') →
      Q (-1) ((w.withSys s').sent data)) →
    Ensures (machine F lossy eof) A
      (isrTransmitFileCompressedLoop L fd blockSize fuel (checksumOf done)) Q w := by
  intro fuel
  induction fuel with
  | zero =>
    intro done w hspin _ _ _ _
    have h := hspin [] w.sys (.nil _) (by simp [Compress]) rfl
    rw [Proc.withSys_self, frames_nil, Proc.sent_nil] at h
    exact ensures_outOfFuel.mpr h
  | succ fuel ih =>
    intro done w hspin hend hfail hloss hlossEnd
    have hstop : ∀ s', (ReadEnd fd blockSize w.sys s' ∨ ReadError F fd blockSize w.sys s') →
        Ensures (machine F lossy eof) A (do
          if (← netSendExact (toBe 8 (checksumOf done))) = -1 then return -1
          return toInt64 (checksumOf done)) Q (w.withSys s') := by
      intro s' he
      have h := hend [] w.sys s' (.nil _) (by simp [Compress]) he
      rw [List.flatten_nil, List.append_nil, frames_nil, List.nil_append] at h
      simp only [ensures_bind]
      refine ensures_netSendExact (fun k hk => hP.send _ _ (by simpa using hk)) h ?_
      exact fun k _ hl => hlossEnd hl [] w.sys s' _ (.nil _) (by simp [Compress]) he
    rw [isrTransmitFileCompressedLoop, ensures_bind, ensures_read]
    refine ⟨hP.read _ _ _, fun r s' hr => ?_, fun hf => ?_⟩
    · rcases r with - | - | ⟨b, buffer⟩
      · exact hstop s' (Or.inr (Or.inl hr))
      · exact hstop s' (Or.inl hr)
      · have hne : b :: buffer ≠ [] := List.cons_ne_nil _ _
        have hlossy : lossy → ∀ data, data <+: frame L blockSize (b :: buffer) →
            Q (-1) ((w.withSys s').sent data) := by
          intro hl data hdata
          refine hloss hl [b :: buffer] s' data (.cons hr hne (.nil _)) ?_
          rwa [frames_cons, frames_nil, List.append_nil]
        change Ensures _ _ (if compressed L blockSize (b :: buffer) = [] then _ else _) _ _
        split
        case isTrue hc =>
          have h := hfail [] (b :: buffer) s' (.cons hr hne (.nil _)) (by simp [Compress]) hc
          rw [frames_nil, Proc.sent_nil] at h
          exact h
        case isFalse hc =>
          have hpos : 0 < (compressed L blockSize (b :: buffer)).length :=
            List.length_pos_iff.mpr hc
          have hcons : ∀ cs, Compress L blockSize cs →
              Compress L blockSize ((b :: buffer) :: cs) := by
            intro cs hcs c hmem
            rcases List.mem_cons.mp hmem with rfl | hmem
            · exact hc
            · exact hcs c hmem
          rw [ensures_bind, checksumOf_append]
          refine ensures_netSendExact (fun k hk => hP.send _ _ (by simpa using hk)) ?_ ?_
          · rw [if_neg (by decide), ensures_bind]
            refine ensures_netSendExact (fun k hk => hP.send _ _ (by simpa using hk)) ?_ ?_
            · rw [if_neg (by decide), Proc.sent_sent]
              refine ih ?_ ?_ ?_ ?_ ?_
              · intro cs s hrun hcs hlen
                have h := hspin ((b :: buffer) :: cs) s (.cons hr hne hrun) (hcons cs hcs)
                  (by simp [hlen])
                simpa [frame, compressed] using h
              · intro cs s s'' hrun hcs he
                have h := hend ((b :: buffer) :: cs) s s'' (.cons hr hne hrun) (hcons cs hcs) he
                simpa [frame, compressed] using h
              · intro cs c s hrun hcs hcc
                have h := hfail ((b :: buffer) :: cs) c s (.cons hr hne hrun) (hcons cs hcs) hcc
                simpa [frame, compressed] using h
              · intro hl cs s data hrun hdata
                have h := hloss hl ((b :: buffer) :: cs) s
                  (frame L blockSize (b :: buffer) ++ data) (.cons hr hne hrun)
                  (List.prefix_append_right_inj _ |>.mpr hdata)
                simpa [frame, compressed] using h
              · intro hl cs s s'' data hrun hcs he
                have h := hlossEnd hl ((b :: buffer) :: cs) s s''
                  (frame L blockSize (b :: buffer) ++ data) (.cons hr hne hrun) (hcons cs hcs) he
                simpa [frame, compressed] using h
            · intro k _ hl
              rw [Proc.sent_sent]
              exact hlossy hl _ (List.prefix_append_right_inj _ |>.mpr (List.take_prefix _ _))
          · exact fun k _ hl => hlossy hl _ ((List.take_prefix _ _).trans (List.prefix_append _ _))
    · exact hstop w.sys (Or.inr (Or.inr ⟨hf, rfl⟩))

/-! ## Receiving

`taken w fd data k` is the only form that a state has while a receiver runs: some bytes have
been received, and some written.  The two structures of cases say what has to be shown of such
states, and the rules for the loops carry them along. -/

/-- `data` has been written to `fd`, and `k` bytes have been received. -/
def taken (w : World) (fd : Fd) (data : List UInt8) (k : Nat) : World :=
  (w.withSys (w.sys.write fd data)).received k

section Taken

variable (w : World) (fd : Fd) (data data' : List UInt8) (k k' : Nat)

@[simp] theorem taken_sys : (taken w fd data k).sys = w.sys.write fd data := rfl

@[simp] theorem taken_rx : (taken w fd data k).rx = w.rx.drop k := rfl

@[simp] theorem taken_tx : (taken w fd data k).tx = w.tx := rfl

@[simp] theorem taken_input : (taken w fd data k).input = w.input := rfl

@[simp] theorem taken_nil : taken w fd [] k = w.received k := by simp [taken]

@[simp] theorem received_taken :
    (taken w fd data k).received k' = taken w fd data (k + k') := by
  simp [taken]

@[simp] theorem taken_received :
    taken (w.received k) fd data k' = taken w fd data (k + k') := by
  simp [taken]

@[simp] theorem taken_taken :
    taken (taken w fd data k) fd data' k' = taken w fd (data ++ data') (k + k') := by
  simp [taken, Sys.write_write]

end Taken

/-- The result of a receiver that has taken `data` and read the checksum bytes
`wire`. -/
def verdict (data wire : List UInt8) : Int :=
  if ofBe wire ≠ checksumOf data then -2 else toInt64 (checksumOf data)

theorem verdict_good {data : List UInt8} :
    verdict data (toBe 8 (checksumOf data)) = toInt64 (checksumOf data) := by
  rw [verdict, ofBe_toBe_of_lt (checksumOf_lt data), if_neg (by simp)]

/-- The rule for the checksum at the end of a stream. -/
theorem ensures_isrReceiveChecksum {data : List UInt8} {w : World} {Q : Int → World → Prop}
    (hrecv : ∀ k, k < 8 → k ≤ w.rx.length → A (w.received k) (.recv (8 - k) (8 - k)))
    (hok : 8 ≤ w.rx.length → Q (verdict data (w.rx.take 8)) (w.received 8))
    (hfail : ∀ k, k < 8 → k ≤ w.rx.length → (lossy ∨ (eof ∧ k = w.rx.length)) →
      Q (-1) (w.received k)) :
    Ensures (machine F lossy eof) A (isrReceiveChecksum (checksumOf data)) Q w := by
  unfold isrReceiveChecksum
  rw [ensures_bind]
  refine ensures_netRecvExact hrecv (fun hlen => ?_) hfail
  have h := hok hlen
  change Ensures _ _ (if ofBe (w.rx.take 8) ≠ checksumOf data then _ else _) _ _
  unfold verdict at h
  split at h
  case isTrue hbad =>
    rw [if_pos hbad]
    exact h
  case isFalse hgood =>
    rw [if_neg hgood]
    exact h

/-- What has to be shown about `isr_receive_file_uncompressed` in the middle of its
loop: `done` has been taken, `remaining` bytes are to come. -/
structure UncompressedCases (F : Faults) (lossy eof : Bool) (A : Guard (NetOp OsOp) World)
    (fd : Fd) (Q : Int → World → Prop) (remaining : Nat) (done : List UInt8) (w : World) :
    Prop where
  /-- A receive never asks for more than what is to come. -/
  recv : ∀ m k room len, m ≤ k → m ≤ remaining → k ≤ w.rx.length → 0 < len → len ≤ room →
    k + len ≤ remaining + 8 → A (taken w fd (w.rx.take m) k) (.recv room len)
  /-- Everything has come, and the checksum too. -/
  complete : remaining + 8 ≤ w.rx.length →
    Q (verdict (done ++ w.rx.take remaining) ((w.rx.drop remaining).take 8))
      (taken w fd (w.rx.take remaining) (remaining + 8))
  /-- The stream ends early, or a write fails. -/
  fail : ∀ m k, m ≤ remaining → m ≤ k → k ≤ w.rx.length → k < remaining + 8 →
    (lossy ∨ F.writes ∨ (eof ∧ k = w.rx.length)) → Q (-1) (taken w fd (w.rx.take m) k)

/-- One piece of `p` bytes has been taken. -/
theorem UncompressedCases.next {fd : Fd} {Q : Int → World → Prop} {remaining p : Nat}
    {done : List UInt8} {w : World} (h : UncompressedCases F lossy eof A fd Q remaining done w)
    (hp : p ≤ remaining) (hlen : p ≤ w.rx.length) :
    UncompressedCases F lossy eof A fd Q (remaining - p) (done ++ w.rx.take p)
      (taken w fd (w.rx.take p) p) := by
  have hjoin : ∀ m, w.rx.take p ++ (w.rx.drop p).take m = w.rx.take (p + m) :=
    fun m => (List.take_add).symm
  have hrx : (taken w fd (w.rx.take p) p).rx.length = w.rx.length - p := by simp
  constructor
  · intro m k room len hmk hm hk hlen' hroom hsum
    have ha := h.recv (p + m) (p + k) room len (by omega) (by omega) (by omega) hlen' hroom
      (by omega)
    rwa [taken_taken, taken_rx, hjoin]
  · intro hle
    have hq := h.complete (by omega)
    have hn : p + (remaining - p) = remaining := by omega
    rwa [taken_taken, taken_rx, List.append_assoc, hjoin, List.drop_drop, ← Nat.add_assoc, hn]
  · intro m k hm hmk hk hlt hl
    have hend : lossy ∨ F.writes ∨ (eof ∧ p + k = w.rx.length) := by
      rcases hl with hl | hl | ⟨he, hl⟩
      · exact Or.inl hl
      · exact Or.inr (Or.inl hl)
      · exact Or.inr (Or.inr ⟨he, by omega⟩)
    have hq := h.fail (p + m) (p + k) (by omega) (by omega) (by omega) (by omega) hend
    rwa [taken_taken, taken_rx, hjoin]

/-- When nothing remains, the checksum is next. -/
theorem UncompressedCases.last {fd : Fd} {Q : Int → World → Prop} {done : List UInt8}
    {w : World} (h : UncompressedCases F lossy eof A fd Q 0 done w) :
    Ensures (machine F lossy eof) A (isrReceiveChecksum (checksumOf done)) Q w := by
  refine ensures_isrReceiveChecksum (fun k hk hkr => ?_) (fun hlen => ?_) ?_
  · have ha := h.recv 0 k (8 - k) (8 - k) (by omega) (by omega) hkr (by omega) (by omega)
      (by omega)
    rwa [List.take_zero, taken_nil] at ha
  · have hq := h.complete (by omega)
    rwa [List.take_zero, taken_nil, List.append_nil, List.drop_zero, Nat.zero_add] at hq
  · intro k hk hkr hl
    have hq := h.fail 0 k (by omega) (by omega) hkr (by omega) (by tauto)
    rwa [List.take_zero, taken_nil] at hq

/-- The rule for `isr_receive_file_uncompressed`. -/
theorem ensures_isrReceiveFileUncompressedLoop (hP : Permits A) {fd : Fd}
    {Q : Int → World → Prop} (fuel : Nat) : ∀ {remaining : Nat} {done : List UInt8} {w : World},
    remaining ≤ fuel → UncompressedCases F lossy eof A fd Q remaining done w →
    Ensures (machine F lossy eof) A
      (isrReceiveFileUncompressedLoop fd fuel remaining (checksumOf done)) Q w := by
  induction fuel with
  | zero =>
    intro remaining done w hfuel h
    obtain rfl : remaining = 0 := by omega
    unfold isrReceiveFileUncompressedLoop
    exact h.last
  | succ fuel ih =>
    intro remaining done w hfuel h
    cases remaining with
    | zero =>
      unfold isrReceiveFileUncompressedLoop
      exact h.last
    | succ n =>
      rw [isrReceiveFileUncompressedLoop, ensures_bind]
      -- the size of this piece
      generalize hp : (if n + 1 < isrIoBufsize then n + 1 else isrIoBufsize) = p
      have hbuf : isrIoBufsize = 65536 := rfl
      have hp0 : 0 < p := by split at hp <;> omega
      have hpn : p ≤ n + 1 := by split at hp <;> omega
      have hpb : p ≤ isrIoBufsize := by split at hp <;> omega
      refine ensures_netRecvExact (fun k hk hkr => ?_) (fun hlen => ?_) ?_
      · have ha := h.recv 0 k (isrIoBufsize - k) (p - k) (by omega) (by omega) hkr (by omega)
          (by omega) (by omega)
        rwa [List.take_zero, taken_nil] at ha
      · have hplen : (w.rx.take p).length = p := by
          rw [List.length_take]
          omega
        simp only [ensures_bind, checksumOf_append]
        refine ensures_isrWriteAll (fun k hk => hP.write _ _ _ ?_) ?_ ?_
        · intro hnil
          rw [List.drop_eq_nil_iff] at hnil
          omega
        · rw [if_neg (by decide)]
          exact ih (by omega) (h.next hpn hlen)
        · intro k hk hw
          have hq := h.fail k p (by omega) (by omega) (by omega) (by omega) (Or.inr (Or.inl hw))
          rw [if_pos rfl, ensures_pure, List.take_take, Nat.min_eq_left (by omega)]
          exact hq
      · intro k hk hkr hl
        have hq := h.fail 0 k (by omega) (by omega) hkr (by omega) (by tauto)
        rwa [List.take_zero, taken_nil] at hq

/-- The length of the block at the beginning of `s`, as it is announced. -/
def blockLength (s : List UInt8) : Nat := ofBe (s.take 4)

/-- What the block at the beginning of `s` decompresses to. -/
def decompressed (L : Lz4) (blockSize : Nat) (s : List UInt8) : Option (List UInt8) :=
  L.decompressSafe ((s.drop 4).take (blockLength s)) (toInt32 (blockLength s))
    (toInt32 blockSize)

/-- `outs` are the blocks a receiver takes off `s`, with `rem` as the counter at the
start, `rem'` at the end, and `k` bytes taken. -/
inductive Blocks (L : Lz4) (blockSize : Nat) :
    (rem : Nat) → (s : List UInt8) → (outs : List (List UInt8)) → (rem' k : Nat) → Prop where
  | nil (rem : Nat) (s : List UInt8) : Blocks L blockSize rem s [] rem 0
  | cons {rem rem' k : Nat} {s out : List UInt8} {outs : List (List UInt8)} :
      rem ≠ 0 → 4 + blockLength s ≤ s.length → decompressed L blockSize s = some out →
        out ≠ [] →
        Blocks L blockSize ((rem + word64 - out.length) % word64)
          (s.drop (4 + blockLength s)) outs rem' k →
        Blocks L blockSize rem s (out :: outs) rem' (4 + blockLength s + k)

/-- A receiver takes no more than there is, and at least four bytes for a block. -/
theorem Blocks.length_le {L : Lz4} {blockSize rem rem' k : Nat} {s : List UInt8}
    {outs : List (List UInt8)} (h : Blocks L blockSize rem s outs rem' k) :
    k ≤ s.length ∧ 4 * outs.length ≤ k := by
  induction h with
  | nil rem s => simp
  | cons _ hlen _ _ _ ih =>
    rw [List.length_drop] at ih
    rw [List.length_cons]
    omega

/-- What has to be shown about `isr_receive_file_compressed` in the middle of its
loop: `done` has been taken, and the counter stands at `remaining`. -/
structure CompressedCases (F : Faults) (lossy eof : Bool) (A : Guard (NetOp OsOp) World)
    (L : Lz4) (blockSize : Nat) (fd : Fd) (Q : Int → World → Prop) (fuel remaining : Nat)
    (done : List UInt8) (w : World) : Prop where
  /-- The fuel is used up. -/
  spin : ∀ outs rem k, Blocks L blockSize remaining w.rx outs rem k → rem ≠ 0 →
    outs.length = fuel → A (taken w fd outs.flatten k) (.sys .spin)
  /-- The receive of a block's length. -/
  recvLength : ∀ outs rem k i, Blocks L blockSize remaining w.rx outs rem k → rem ≠ 0 →
    i < 4 → k + i ≤ w.rx.length →
    A (taken w fd outs.flatten (k + i)) (.recv (4 - i) (4 - i))
  /-- The receive of a block's body. -/
  recvBody : ∀ outs rem k i, Blocks L blockSize remaining w.rx outs rem k → rem ≠ 0 →
    i < blockLength (w.rx.drop k) → k + (4 + i) ≤ w.rx.length →
    A (taken w fd outs.flatten (k + (4 + i)))
      (.recv (lz4CompressBound blockSize - i) (blockLength (w.rx.drop k) - i))
  /-- The receive of the checksum. -/
  recvChecksum : ∀ outs k i, Blocks L blockSize remaining w.rx outs 0 k → i < 8 →
    k + i ≤ w.rx.length → A (taken w fd outs.flatten (k + i)) (.recv (8 - i) (8 - i))
  /-- The counter has come to zero and the checksum is there. -/
  complete : ∀ outs k, Blocks L blockSize remaining w.rx outs 0 k → k + 8 ≤ w.rx.length →
    Q (verdict (done ++ outs.flatten) ((w.rx.drop k).take 8))
      (taken w fd outs.flatten (k + 8))
  /-- A block does not decompress. -/
  bad : ∀ outs rem k, Blocks L blockSize remaining w.rx outs rem k → rem ≠ 0 →
    k + (4 + blockLength (w.rx.drop k)) ≤ w.rx.length →
    (∀ out, decompressed L blockSize (w.rx.drop k) = some out → out = []) →
    Q (-1) (taken w fd outs.flatten (k + (4 + blockLength (w.rx.drop k))))
  /-- The stream ends early. -/
  cut : ∀ outs rem k j, Blocks L blockSize remaining w.rx outs rem k → k ≤ j →
    (rem = 0 → j < k + 8) → (rem ≠ 0 → j < k + (4 + blockLength (w.rx.drop k))) →
    j ≤ w.rx.length → (lossy ∨ (eof ∧ j = w.rx.length)) →
    Q (-1) (taken w fd outs.flatten j)
  /-- A write fails, somewhere in a block. -/
  fail : F.writes → ∀ outs rem k out m, Blocks L blockSize remaining w.rx outs rem k → rem ≠ 0 →
    k + (4 + blockLength (w.rx.drop k)) ≤ w.rx.length →
    decompressed L blockSize (w.rx.drop k) = some out → m < out.length →
    Q (-1) (taken w fd (outs.flatten ++ out.take m) (k + (4 + blockLength (w.rx.drop k))))

section CompressedCases

variable {L : Lz4} {blockSize : Nat} {fd : Fd} {Q : Int → World → Prop}
variable {fuel remaining : Nat} {done out : List UInt8} {w : World}

theorem CompressedCases.next
    (h : CompressedCases F lossy eof A L blockSize fd Q (fuel + 1) remaining done w)
    (hrem : remaining ≠ 0) (hlen : 4 + blockLength w.rx ≤ w.rx.length)
    (hdec : decompressed L blockSize w.rx = some out) (hout : out ≠ []) :
    CompressedCases F lossy eof A L blockSize fd Q fuel
      ((remaining + word64 - out.length) % word64) (done ++ out)
      (taken w fd out (4 + blockLength w.rx)) := by
  have hb : ∀ {outs rem k}, Blocks L blockSize ((remaining + word64 - out.length) % word64)
      (w.rx.drop (4 + blockLength w.rx)) outs rem k →
      Blocks L blockSize remaining w.rx (out :: outs) rem (4 + blockLength w.rx + k) :=
    fun hbs => .cons hrem hlen hdec hout hbs
  have hle : ∀ {k}, k ≤ (w.rx.drop (4 + blockLength w.rx)).length →
      4 + blockLength w.rx + k ≤ w.rx.length := by
    intro k hk
    rw [List.length_drop] at hk
    omega
  constructor
  · intro outs rem k hbs hr hf
    have ha := h.spin _ rem _ (hb hbs) hr (by simp [hf])
    rwa [taken_taken]
  · intro outs rem k i hbs hr hi hk
    have ha := h.recvLength _ rem _ i (hb hbs) hr hi (by rw [Nat.add_assoc]; exact hle hk)
    rwa [taken_taken, ← Nat.add_assoc]
  · intro outs rem k i hbs hr hi hk
    rw [taken_rx, List.drop_drop] at hi ⊢
    have ha := h.recvBody _ rem _ i (hb hbs) hr hi (by rw [Nat.add_assoc]; exact hle hk)
    rwa [taken_taken, ← Nat.add_assoc]
  · intro outs k i hbs hi hk
    have ha := h.recvChecksum _ _ i (hb hbs) hi (by rw [Nat.add_assoc]; exact hle hk)
    rwa [taken_taken, ← Nat.add_assoc]
  · intro outs k hbs hk
    have hq := h.complete _ _ (hb hbs) (by rw [Nat.add_assoc]; exact hle hk)
    rwa [taken_taken, taken_rx, List.drop_drop, ← Nat.add_assoc, List.append_assoc]
  · intro outs rem k hbs hr hk hbad
    rw [taken_rx, List.drop_drop] at hbad hk ⊢
    have hq := h.bad _ rem _ (hb hbs) hr (by rw [Nat.add_assoc]; exact hle hk) hbad
    rwa [taken_taken, ← Nat.add_assoc]
  · intro outs rem k j hbs hkj h8 hblock hj hl
    have hend : lossy ∨ (eof ∧ 4 + blockLength w.rx + j = w.rx.length) := by
      rcases hl with hl | ⟨he, hl⟩
      · exact Or.inl hl
      · rw [taken_rx, List.length_drop] at hl
        exact Or.inr ⟨he, by omega⟩
    rw [taken_rx, List.drop_drop] at hblock
    have hq := h.cut _ rem _ (4 + blockLength w.rx + j) (hb hbs) (by omega)
      (fun h0 => by have := h8 h0; omega) (fun h0 => by have := hblock h0; omega) (hle hj) hend
    rwa [taken_taken]
  · intro hw outs rem k out' m hbs hr hk hdec' hm
    rw [taken_rx, List.drop_drop] at hdec' hk ⊢
    have hq := h.fail hw _ rem _ out' m (hb hbs) hr (by rw [Nat.add_assoc]; exact hle hk) hdec' hm
    rwa [taken_taken, ← List.append_assoc, ← Nat.add_assoc]

/-- When the counter is at zero, the checksum is next. -/
theorem CompressedCases.last
    (h : CompressedCases F lossy eof A L blockSize fd Q fuel 0 done w) :
    Ensures (machine F lossy eof) A (isrReceiveChecksum (checksumOf done)) Q w := by
  refine ensures_isrReceiveChecksum (fun k hk hkr => ?_) (fun hlen => ?_) ?_
  · have ha := h.recvChecksum [] 0 k (.nil _ _) hk (by omega)
    rwa [List.flatten_nil, taken_nil, Nat.zero_add] at ha
  · have hq := h.complete [] 0 (.nil _ _) (by omega)
    rwa [List.flatten_nil, taken_nil, List.append_nil, List.drop_zero, Nat.zero_add] at hq
  · intro k hk hkr hl
    have hq := h.cut [] 0 0 k (.nil _ _) (Nat.zero_le k) (by omega) (by omega) hkr hl
    rwa [List.flatten_nil, taken_nil] at hq

/-- The rule for `isr_receive_file_compressed`, in the middle of the loop. -/
theorem ensures_isrReceiveFileCompressedLoop (hP : Permits A) (fuel : Nat) :
    ∀ {remaining : Nat} {done : List UInt8} {w : World},
    CompressedCases F lossy eof A L blockSize fd Q fuel remaining done w →
    Ensures (machine F lossy eof) A
      (isrReceiveFileCompressedLoop L fd blockSize fuel remaining (checksumOf done)) Q w := by
  induction fuel with
  | zero =>
    intro remaining done w h
    cases remaining with
    | zero =>
      unfold isrReceiveFileCompressedLoop
      exact h.last
    | succ n =>
      have ha := h.spin [] (n + 1) 0 (.nil _ _) (by omega) rfl
      rw [List.flatten_nil, taken_nil, Proc.received_zero] at ha
      exact ensures_outOfFuel.mpr ha
  | succ fuel ih =>
    intro remaining done w h
    cases remaining with
    | zero =>
      unfold isrReceiveFileCompressedLoop
      exact h.last
    | succ n =>
      have hstart : Blocks L blockSize (n + 1) w.rx [] (n + 1) 0 := .nil (n + 1) w.rx
      have hcut : ∀ j, j < 4 + blockLength w.rx → j ≤ w.rx.length →
          (lossy ∨ (eof ∧ j = w.rx.length)) → Q (-1) (w.received j) := by
        intro j hlt hj hl
        have hq := h.cut [] (n + 1) 0 j hstart (Nat.zero_le j) (by omega)
          (fun _ => by rw [List.drop_zero]; omega) hj hl
        rwa [List.flatten_nil, taken_nil] at hq
      rw [isrReceiveFileCompressedLoop, ensures_bind]
      refine ensures_netRecvExact (fun k hk hkr => ?_) (fun h4 => ?_)
        (fun k hk hkr hl => hcut k (by omega) hkr hl)
      · have ha := h.recvLength [] (n + 1) 0 k hstart (by omega) hk (by omega)
        rwa [List.flatten_nil, taken_nil, Nat.zero_add] at ha
      -- the length of the block is there
      simp only [ensures_bind]
      change Ensures _ _ (netRecvExact _ (blockLength w.rx)) _ _
      refine ensures_netRecvExact (fun k hk hkr => ?_) (fun hbody => ?_) (fun k hk hkr hl => ?_)
      · have hkr' : k ≤ w.rx.length - 4 := by simpa using hkr
        have ha := h.recvBody [] (n + 1) 0 k hstart (by omega) hk (by omega)
        rw [Proc.received_received]
        rwa [List.flatten_nil, taken_nil, Nat.zero_add, List.drop_zero] at ha
      · -- and so is its body
        have hlen : 4 + blockLength w.rx ≤ w.rx.length := by
          have hbody' : blockLength w.rx ≤ w.rx.length - 4 := by simpa using hbody
          omega
        have hbad : (∀ out, decompressed L blockSize w.rx = some out → out = []) →
            Q (-1) ((w.received 4).received (blockLength w.rx)) := by
          intro hd
          have hq := h.bad [] (n + 1) 0 hstart (by omega) (by simpa using hlen)
            (by simpa using hd)
          rw [List.flatten_nil, taken_nil, Nat.zero_add] at hq
          rw [Proc.received_received]
          exact hq
        simp only [Proc.received_rx]
        split
        case h_1 b out hdec =>
          have hne : b :: out ≠ [] := List.cons_ne_nil _ _
          rw [ensures_bind, checksumOf_append, Proc.received_received]
          refine ensures_isrWriteAll (fun k hk => hP.write _ _ _ ?_) ?_ ?_
          · intro hnil
            rw [List.drop_eq_nil_iff] at hnil
            omega
          · rw [if_neg (by decide)]
            exact ih (h.next (by omega) hlen hdec hne)
          · intro k hk hw
            have hq := h.fail hw [] (n + 1) 0 (b :: out) k hstart (by omega) (by simpa using hlen)
              hdec hk
            rwa [List.flatten_nil, List.nil_append, Nat.zero_add] at hq
        case h_2 hnone =>
          refine hbad fun out hd => ?_
          cases out with
          | nil => rfl
          | cons b out => exact (hnone b out hd).elim
      · rw [Proc.received_received]
        have hkr' : k ≤ w.rx.length - 4 := by simpa using hkr
        refine hcut (4 + k) (by omega) (by omega) ?_
        rcases hl with hl | ⟨he, hl⟩
        · exact Or.inl hl
        · have hl' : k = w.rx.length - 4 := by simpa using hl
          exact Or.inr ⟨he, by omega⟩

end CompressedCases

end IsrTransfer
