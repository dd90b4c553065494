import IsrTransfer.PathRules
import IsrTransfer.RoundTrip

/-!
# What a peer can do to the compressed receiver

The peer of `isr_receive_file_compressed` chooses three numbers: the block size in the
header, the length of each block, and what each block decompresses to.  The receiver
allocates buffers by the first, asks for as many bytes as the second says, and takes the
third off a counter that started at the announced length.  It compares none of them
with another.

* `blockLengths_iff`: no receive asks for more than its buffer holds exactly if every
  block the receiver comes to is announced with at most `LZ4_compressBound` bytes.
* `announcedLength_respected_iff`: no more is written than was announced exactly if every
  block the receiver comes to decompresses to at most as many bytes as are still missing.

In both directions the argument goes through `Blocks`, the blocks that a receiver takes
off a stream.  What follows from it for all runs is the business of the rule for the
loop; that there is a run which takes these blocks is `Blocks.reaches`.

## Room in the buffer

A receive says how much room is left in its buffer, and so to stay inside is a guard (`InRoom`).
Where a block is announced with more than there is room for, a receiver that stayed inside would
have to give up before it receives anything of it; this one asks for all of it.

## What has been written

How much has been written to a file is its position, and positions only move on as long as
nothing is opened (`pos_le_of_step`).  So it is enough to look at the moments at which a program
waits for its peer, and at its end (`pos_le_of_ensures`): what is below a bound there has been
below it all the time.  Between these moments the rule for the loop has nothing to say, and need
not have.

If a block is too long, the counter of eight bytes wraps around, and the receiver goes on for a
length that nobody has announced (`exists_overrun`).
-/

namespace IsrTransfer

open Effect Posix

variable {F : Faults} {lossy eof : Bool} {A : Guard (NetOp OsOp) World} {w : World}

section

variable {L : Lz4} {blockSize : Nat} {fd : Fd}

/-! ## A run that takes the blocks -/

/-- The loop runs through the blocks that it finds. -/
theorem Blocks.reaches {rem rem' k fuel : Nat} {s : List UInt8} {outs : List (List UInt8)}
    (h : Blocks L blockSize rem s outs rem' k) : ∀ {w : World} {done : List UInt8}, w.rx = s →
      Reaches (machine Faults.none false false)
        (isrReceiveFileCompressedLoop L fd blockSize (fuel + outs.length) rem (checksumOf done)) w
        (isrReceiveFileCompressedLoop L fd blockSize fuel rem' (checksumOf (done ++ outs.flatten)))
        (taken w fd outs.flatten k) := by
  induction h with
  | nil rem s =>
    intro w done _
    rw [List.flatten_nil, List.append_nil, taken_nil]
    exact .refl _ _
  | @cons rem rem' k s out outs hrem hlen hdec hout _ ih =>
    intro w done hw
    obtain ⟨m, rfl⟩ : ∃ m, rem = m + 1 := ⟨rem - 1, by omega⟩
    obtain ⟨b, o, rfl⟩ := List.exists_cons_of_ne_nil hout
    subst hw
    -- the length, the body, and the file
    have hhead := @reaches_netRecvExact w 4 4 (by omega)
    have hbody := @reaches_netRecvExact (w.received 4) (lz4CompressBound blockSize)
      (blockLength w.rx) (by rw [Proc.received_rx, List.length_drop]; omega)
    have hwrite := @reaches_isrWriteAll ((w.received 4).received (blockLength w.rx)) fd (b :: o)
    have hrest := @ih (taken w fd (b :: o) (4 + blockLength w.rx)) (done ++ (b :: o)) rfl
    rw [taken_taken, List.append_assoc] at hrest
    rw [List.length_cons, ← Nat.add_assoc, isrReceiveFileCompressedLoop]
    refine (hhead.bind _).trans ?_
    refine (hbody.bind _).trans ?_
    simp only [Program.ret_bind]
    have hdec' : L.decompressSafe ((w.received 4).rx.take (blockLength w.rx))
        (toInt32 (ofBe (w.rx.take 4))) (toInt32 blockSize) = some (b :: o) := hdec
    rw [hdec']
    simp only [checksumOf_append]
    refine (hwrite.bind _).trans ?_
    rw [Program.ret_bind, if_neg (by decide)]
    rw [Proc.received_received]
    exact hrest

/-- The two allocations succeed, and the loop begins. -/
theorem reaches_isrReceiveFileCompressed (fuel n : Nat) (w : World) :
    Reaches (machine Faults.none false false) (isrReceiveFileCompressed L fuel fd blockSize n) w
      (isrReceiveFileCompressedLoop L fd blockSize fuel n (checksumOf [])) w := by
  have hmalloc : ∀ size, machine Faults.none false false w (.sys (.malloc size)) true w :=
    fun _ => ⟨w.sys, ⟨Or.inl rfl, rfl⟩, rfl⟩
  exact .step (hmalloc _) (.step (hmalloc _) (.refl _ _))

/-! ## Lengths of blocks -/

/-- A receive asks for no more than the buffer has room for. -/
def InRoom : Guard (NetOp OsOp) World := fun _ _ op =>
  match op with
  | .recv room len => len ≤ room
  | _ => True

theorem permits_inRoom : Permits InRoom :=
  ⟨fun _ _ _ => trivial, fun _ => trivial, fun _ _ _ => trivial, fun _ _ _ _ => trivial,
    fun _ _ => trivial, fun _ _ => trivial, fun _ _ => trivial, fun _ _ => trivial⟩

/-- On this stream, the receiver never asks for more than its buffer holds; and when a
block is announced with more than that, the receiver gives up with no byte of it
received. -/
def BlockLengthsKept (L : Lz4) (blockSize n : Nat) (stream : List UInt8) : Prop :=
  ∀ (F : Faults) (lossy eof : Bool) (fuel : Nat) (fd : Fd) (w : World), w.rx = stream →
    (∀ q v, Reaches (machine F lossy eof) (isrReceiveFileCompressed L fuel fd blockSize n) w q v →
      Here InRoom (fun _ _ => True) q v) ∧
    ∀ outs rem k, Blocks L blockSize n stream outs rem k → rem ≠ 0 → k + 4 ≤ stream.length →
      lz4CompressBound blockSize < blockLength (stream.drop k) → ∀ r v,
      Reaches (machine F lossy eof) (isrReceiveFileCompressed L fuel fd blockSize n) w (.ret r) v →
        r = -1 ∧ stream.length ≤ v.rx.length + (k + 4)

/-- Every block the receiver comes to is announced with at most `LZ4_compressBound`
bytes. -/
def BlocksFit (L : Lz4) (blockSize n : Nat) (stream : List UInt8) : Prop :=
  ∀ outs rem k, Blocks L blockSize n stream outs rem k → rem ≠ 0 → k + 4 ≤ stream.length →
    blockLength (stream.drop k) ≤ lz4CompressBound blockSize

theorem ensures_inRoom {fuel n : Nat} (hfit : BlocksFit L blockSize n w.rx) :
    Ensures (machine F lossy eof) InRoom (isrReceiveFileCompressed L fuel fd blockSize n)
      (fun _ _ => True) w := by
  unfold isrReceiveFileCompressed
  rw [ensures_bind, ensures_malloc]
  refine ⟨trivial, ?_, fun _ => trivial⟩
  rw [if_neg (by decide), ensures_bind, ensures_malloc]
  refine ⟨trivial, ?_, fun _ => trivial⟩
  rw [if_neg (by decide)]
  change Ensures _ _ (isrReceiveFileCompressedLoop L fd blockSize fuel n (checksumOf [])) _ _
  refine ensures_isrReceiveFileCompressedLoop permits_inRoom fuel ?_
  constructor
  · exact fun _ _ _ _ _ _ => trivial
  · exact fun _ _ _ _ _ _ _ _ => Nat.le_refl _
  · intro outs rem k i hb hrem _ hk
    have hle := hfit outs rem k hb hrem (by omega)
    exact Nat.sub_le_sub_right hle i
  · exact fun _ _ _ _ _ _ => Nat.le_refl _
  · exact fun _ _ _ _ => trivial
  · exact fun _ _ _ _ _ _ _ => trivial
  · exact fun _ _ _ _ _ _ _ _ _ _ => trivial
  · exact fun _ _ _ _ _ _ _ _ _ _ _ => trivial

/-- A receiver that stays inside its buffer does so at every block it can come to. -/
theorem blocksFit_of_inRoom {n : Nat}
    (h : ∀ fuel, Ensures (machine Faults.none false false) InRoom
      (isrReceiveFileCompressed L fuel fd blockSize n) (fun _ _ => True) w) :
    BlocksFit L blockSize n w.rx := by
  intro outs rem k hb hrem hk
  by_cases hzero : blockLength (w.rx.drop k) = 0
  · omega
  obtain ⟨m, rfl⟩ : ∃ m, rem = m + 1 := ⟨rem - 1, by omega⟩
  have hstart := (h (1 + outs.length)).of_reaches (reaches_isrReceiveFileCompressed _ _ _)
  have hblock := hstart.of_reaches (hb.reaches rfl)
  rw [isrReceiveFileCompressedLoop] at hblock
  have hhead := @reaches_netRecvExact (taken w fd outs.flatten k) 4 4
    (by rw [taken_rx, List.length_drop]; omega)
  have hbody := hblock.of_reaches (hhead.bind _)
  simp only [Program.ret_bind, taken_rx] at hbody
  exact guard_of_netRecvExact (Nat.pos_of_ne_zero hzero) hbody

theorem BlockLengthsKept.fit {n : Nat} {stream : List UInt8}
    (h : BlockLengthsKept L blockSize n stream) : BlocksFit L blockSize n stream := by
  have hw : ∀ fuel, Ensures (machine Faults.none false false) InRoom
      (isrReceiveFileCompressed L fuel ⟨none, 0⟩ blockSize n) (fun _ _ => True)
      (Proc.start (.initial .empty) stream) := fun fuel =>
    ensures_iff_reaches.mpr (h _ _ _ fuel _ _ rfl).1
  exact blocksFit_of_inRoom hw

end

/-- **Lengths of blocks.**  The receives of `isr_receive_file_compressed` stay inside its
buffers exactly on those streams whose blocks are announced with at most the size for
which the buffer was allocated; nothing else keeps them there. -/
theorem blockLengths_iff (L : Lz4) (blockSize n : Nat) (stream : List UInt8) :
    BlockLengthsKept L blockSize n stream ↔ BlocksFit L blockSize n stream := by
  refine ⟨BlockLengthsKept.fit, ?_⟩
  rintro hfit F lossy eof fuel fd w rfl
  refine ⟨ensures_iff_reaches.mp (ensures_inRoom hfit), ?_⟩
  intro outs rem k hb hrem hk hlong
  exact absurd (hfit outs rem k hb hrem hk) (Nat.not_le.mpr hlong)

/-- A block that is announced with 4 GiB, for a buffer of 4128 bytes. -/
theorem blockLengths_overflow : ¬ BlockLengthsKept shortLz4 4096 1 [0xFF, 0xFF, 0xFF, 0xFF] := by
  intro hkept
  have hle := hkept.fit [] 1 0 (.nil _ _) (by decide) (by decide)
  exact absurd hle (by decide)

/-! ## The announced length

The receiver subtracts what a block decompresses to from a counter of 64 bits, and does not ask
whether there is so much left.  If no block is too long the counter and what has been written
add up to the announced length all the way (`BlocksInLength.counter`).  The first block that is
too long takes the file beyond it, whatever happens afterwards (`exists_overrun`). -/

/-- No more than `b` bytes into the file `id` whenever a program waits for the peer or runs
out of fuel; and every other operation has an answer.  No file is opened, which would move
a position back. -/
def StaysBelow (E : Env (NetOp OsOp) World) (id b : Nat) : Guard (NetOp OsOp) World :=
  fun _ v op =>
    match op with
    | .recv _ _ => v.sys.pos id ≤ b
    | .sys .spin => v.sys.pos id ≤ b
    | .sys (.openRead _) => False
    | .sys (.openWrite _) => False
    | op => ∃ r v', E v op r v'

theorem permits_staysBelow {id b : Nat} : Permits (StaysBelow (machine F lossy eof) id b) where
  send _ _ h := answered_send h
  close w := ⟨(), w, rfl⟩
  read _ fd len := answered_read fd len
  write _ fd _ h := answered_write fd h
  closeFd _ fd := answered_close fd
  malloc _ n := answered_malloc n
  print _ _ := answered_sys ⟨(), _, rfl⟩
  eprint _ _ := answered_sys ⟨(), _, rfl⟩

theorem pos_write (s : Sys) (fd : Fd) (data : List UInt8) (id : Nat) :
    s.pos id ≤ (s.write fd data).pos id := by
  unfold Sys.write
  split
  · exact Nat.le_refl _
  · simp only
    split
    · rename_i h
      rw [h]
      omega
    · exact Nat.le_refl _

theorem pos_readStep {s s' : Sys} {fd : Fd} {len id : Nat} {r : Option (List UInt8)}
    (h : s.ReadStep fd len r s') : s.pos id ≤ s'.pos id := by
  unfold Sys.ReadStep at h
  split at h
  · split at h <;> rw [h.2]
  · split at h
    · rw [h.2]
    · split at h
      · rw [h.2]
      · obtain ⟨k, -, -, -, -, rfl⟩ := h
        unfold Sys.advance
        simp only
        split
        · rename_i hid
          rw [hid]
          omega
        · exact Nat.le_refl _

def Opens {ρ : Type} (op : NetOp OsOp ρ) : Prop :=
  match op with
  | .sys (.openRead _) => True
  | .sys (.openWrite _) => True
  | _ => False

/-- Nothing but the opening of a file moves a position back. -/
theorem pos_le_of_step {ρ : Type} {op : NetOp OsOp ρ} {r : ρ} {v v' : World} (id : Nat)
    (hr : machine F lossy eof v op r v') (hopen : ¬ Opens op) :
    v.sys.pos id ≤ v'.sys.pos id := by
  cases op with
  | recv room len => rcases hr with ⟨k, -, -, -, -, rfl⟩ | ⟨-, -, rfl⟩ <;> exact Nat.le_refl _
  | connect => rcases hr with ⟨-, input, rfl⟩ | ⟨-, -, rfl⟩ <;> exact Nat.le_refl _
  | send data => rcases hr with ⟨k, -, -, -, rfl⟩ | ⟨-, -, rfl⟩ <;> exact Nat.le_refl _
  | close =>
    obtain rfl := hr
    exact Nat.le_refl _
  | sys op =>
    obtain ⟨s', hs, rfl⟩ := hr
    cases op with
    | openRead path => exact absurd trivial hopen
    | openWrite path => exact absurd trivial hopen
    | read fd len =>
      rcases hs with hs | ⟨-, -, rfl⟩
      · exact pos_readStep hs
      · exact Nat.le_refl _
    | write fd data =>
      rcases hs with ⟨k, -, -, -, rfl⟩ | ⟨-, -, rfl⟩
      · exact pos_write _ _ _ _
      · exact Nat.le_refl _
    | mkdir path =>
      obtain ⟨fs, -, rfl⟩ := (show MkdirStep F v.sys path r s' from hs).dirsAdded
      exact Nat.le_refl _
    | stat _ | realpath _ | opendir _ | malloc _ =>
      obtain ⟨-, rfl⟩ := hs
      exact Nat.le_refl _
    | close _ | print _ | eprint _ =>
      obtain rfl := hs
      exact Nat.le_refl _
    | spin => exact hs.elim

/-- What is below `b` at the end, and whenever the program waits, is below `b` always:
between two waits positions only move on. -/
theorem pos_le_of_ensures {α : Type} {id b : Nat} (p : Prog α) : ∀ {v : World},
    Ensures (machine F lossy eof) (StaysBelow (machine F lossy eof) id b) p
      (fun _ u => u.sys.pos id ≤ b) v → v.sys.pos id ≤ b := by
  induction p with
  | ret a => exact fun h => h
  | @call ρ op k ih =>
    intro v h
    obtain ⟨hA, hk⟩ := ensures_call.mp h
    have hon : ¬ Opens op → (∃ r v', machine F lossy eof v op r v') → v.sys.pos id ≤ b := by
      rintro hno ⟨r, v', hr⟩
      exact (pos_le_of_step id hr hno).trans (ih _ (hk _ _ hr))
    cases op with
    | recv room len => exact hA
    | connect | send _ | close => exact hon not_false hA
    | sys op =>
      cases op with
      | spin => exact hA
      | openRead path => exact hA.elim
      | openWrite path => exact hA.elim
      | _ => exact hon not_false hA

/-- The position of a file after a write to it. -/
theorem pos_taken (i id : Nat) (data : List UInt8) (k : Nat) :
    (taken w ⟨some i, id⟩ data k).sys.pos id = w.sys.pos id + data.length := if_pos rfl

/-- On this stream, whatever the network, the allocations and the writes do, never more
than `n` bytes are written to the file; the counter and what has been written always add
up to `n`; and the receiver succeeds only with `n` bytes written whose sum is what the
next eight bytes of the stream say. -/
def LengthRespected (L : Lz4) (blockSize n : Nat) (stream : List UInt8) : Prop :=
  (∀ outs rem k, Blocks L blockSize n stream outs rem k → rem + outs.flatten.length = n) ∧
    ∀ (F : Faults) (lossy eof : Bool) (fuel i id : Nat) (w : World), w.rx = stream →
      (∀ q v, Reaches (machine F lossy eof)
          (isrReceiveFileCompressed L fuel ⟨some i, id⟩ blockSize n) w q v →
        v.sys.pos id ≤ w.sys.pos id + n) ∧
      ∀ r v, Reaches (machine F lossy eof)
          (isrReceiveFileCompressed L fuel ⟨some i, id⟩ blockSize n) w (.ret r) v → 0 ≤ r →
        ∃ data k, data.length = n ∧ k + 8 ≤ stream.length ∧
          v = taken w ⟨some i, id⟩ data (k + 8) ∧
          ofBe ((stream.drop k).take 8) = checksumOf data ∧ r = toInt64 (checksumOf data)

/-- Every block the receiver comes to decompresses to at most as many bytes as are still
missing, or not at all. -/
def BlocksInLength (L : Lz4) (blockSize n : Nat) (stream : List UInt8) : Prop :=
  ∀ outs rem k out, Blocks L blockSize n stream outs rem k → rem ≠ 0 →
    k + (4 + blockLength (stream.drop k)) ≤ stream.length →
    decompressed L blockSize (stream.drop k) = some out → out.length ≤ rem

section

variable {L : Lz4} {blockSize n : Nat} {stream : List UInt8}

theorem BlocksInLength.next {out : List UInt8} (h : BlocksInLength L blockSize n stream)
    (hn : n < word64) (hrem : n ≠ 0) (hlen : 4 + blockLength stream ≤ stream.length)
    (hdec : decompressed L blockSize stream = some out) (hout : out ≠ []) :
    BlocksInLength L blockSize (n - out.length) (stream.drop (4 + blockLength stream)) := by
  have hle := h [] n 0 out (.nil _ _) hrem (by simpa using hlen) (by simpa using hdec)
  intro outs rem k out' hb hr hk hdec'
  have hcons : Blocks L blockSize n stream (out :: outs) rem (4 + blockLength stream + k) := by
    refine .cons hrem hlen hdec hout ?_
    rwa [word64_sub hn hle]
  rw [List.drop_drop] at hdec' hk
  refine h _ rem _ out' hcons hr ?_ hdec'
  rw [List.length_drop] at hk
  omega

/-- Where no block is too long the counter does not wrap around. -/
theorem BlocksInLength.counter {outs : List (List UInt8)} {rem k : Nat}
    (hb : Blocks L blockSize n stream outs rem k) (hn : n < word64)
    (h : BlocksInLength L blockSize n stream) : rem + outs.flatten.length = n := by
  induction hb with
  | nil rem s => rfl
  | @cons n rem k s out outs hrem hlen hdec hout _ ih =>
    have hle := h [] n 0 out (.nil _ _) hrem (by simpa using hlen) (by simpa using hdec)
    have hnext := h.next hn hrem hlen hdec hout
    rw [word64_sub hn hle] at ih
    have hsum := ih (by omega) hnext
    rw [List.flatten_cons, List.length_append]
    omega

/-- The rule for the loop, read for a stream whose blocks are not too long. -/
theorem ensures_staysBelow {fuel i id : Nat} (hn : n < word64)
    (h : BlocksInLength L blockSize n w.rx) :
    Ensures (machine F lossy eof) (StaysBelow (machine F lossy eof) id (w.sys.pos id + n))
      (isrReceiveFileCompressed L fuel ⟨some i, id⟩ blockSize n)
      (fun r v => v.sys.pos id ≤ w.sys.pos id + n ∧ (0 ≤ r → ∃ data k, data.length = n ∧
        k + 8 ≤ w.rx.length ∧ v = taken w ⟨some i, id⟩ data (k + 8) ∧
        ofBe ((w.rx.drop k).take 8) = checksumOf data ∧ r = toInt64 (checksumOf data))) w := by
  have hbelow : ∀ {outs rem k j}, Blocks L blockSize n w.rx outs rem k →
      (taken w ⟨some i, id⟩ outs.flatten j).sys.pos id ≤ w.sys.pos id + n := by
    intro outs rem k j hb
    have hsum := BlocksInLength.counter hb hn h
    rw [pos_taken]
    omega
  have hsame : w.sys.pos id ≤ w.sys.pos id + n := Nat.le_add_right _ _
  have hneg : ¬ (0 : Int) ≤ -1 := by decide
  unfold isrReceiveFileCompressed
  rw [ensures_bind, ensures_malloc]
  refine ⟨permits_staysBelow.malloc _ _, ?_, fun _ => ⟨hsame, fun h => absurd h hneg⟩⟩
  rw [if_neg (by decide), ensures_bind, ensures_malloc]
  refine ⟨permits_staysBelow.malloc _ _, ?_, fun _ => ⟨hsame, fun h => absurd h hneg⟩⟩
  rw [if_neg (by decide)]
  change Ensures _ _ (isrReceiveFileCompressedLoop L _ blockSize fuel n (checksumOf [])) _ _
  refine ensures_isrReceiveFileCompressedLoop permits_staysBelow fuel ?_
  constructor
  · exact fun _ _ _ hb _ _ => hbelow hb
  · exact fun _ _ _ _ hb _ _ _ => hbelow hb
  · exact fun _ _ _ _ hb _ _ _ => hbelow hb
  · exact fun _ _ _ hb _ _ => hbelow hb
  · -- the checksum
    intro outs k hb hk
    refine ⟨hbelow hb, fun hr => ?_⟩
    have hsum := BlocksInLength.counter hb hn h
    rw [List.nil_append] at hr ⊢
    unfold verdict at hr ⊢
    split at hr
    case isTrue => exact absurd hr (by decide)
    case isFalse hgood =>
      rw [if_neg hgood]
      exact ⟨_, k, by omega, hk, rfl, not_not.mp hgood, rfl⟩
  · exact fun _ _ _ hb _ _ _ => ⟨hbelow hb, fun h => absurd h hneg⟩
  · exact fun _ _ _ _ hb _ _ _ _ _ => ⟨hbelow hb, fun h => absurd h hneg⟩
  · -- a write fails in the middle of a block
    intro _ outs rem k out m hb hrem hk hdec hm
    refine ⟨?_, fun h => absurd h hneg⟩
    have hsum := BlocksInLength.counter hb hn h
    have hle := h outs rem k out hb hrem hk hdec
    rw [pos_taken, List.length_append, List.length_take]
    omega

/-- A block that is too long makes the receiver write more than was announced. -/
theorem exists_overrun {outs : List (List UInt8)} {rem k : Nat} {out : List UInt8}
    (hb : Blocks L blockSize n stream outs rem k) (hsum : rem + outs.flatten.length = n)
    (hrem : rem ≠ 0) (hk : k + (4 + blockLength (stream.drop k)) ≤ stream.length)
    (hdec : decompressed L blockSize (stream.drop k) = some out) (hlong : rem < out.length)
    (w : World) (hw : w.rx = stream) (i id : Nat) :
    ∃ fuel q v, Reaches (machine Faults.none false false)
        (isrReceiveFileCompressed L fuel ⟨some i, id⟩ blockSize n) w q v ∧
      w.sys.pos id + n < v.sys.pos id := by
  have hne : out ≠ [] := by
    rintro rfl
    simp at hlong
  have hone : Blocks L blockSize rem (stream.drop k) [out]
      ((rem + word64 - out.length) % word64) (4 + blockLength (stream.drop k) + 0) :=
    .cons hrem (by rw [List.length_drop]; omega) hdec hne (.nil _ _)
  have hfirst := @Blocks.reaches L blockSize ⟨some i, id⟩ n rem k 1 stream outs hb w [] hw
  have hsecond := @Blocks.reaches L blockSize ⟨some i, id⟩ _ _ _ 0 _ _ hone
    (taken w ⟨some i, id⟩ outs.flatten k) ([] ++ outs.flatten) (by rw [taken_rx, hw])
  refine ⟨1 + outs.length, _, _, ((reaches_isrReceiveFileCompressed _ _ _).trans hfirst).trans
    hsecond, ?_⟩
  rw [taken_taken, pos_taken, List.length_append, List.flatten_cons, List.flatten_nil,
    List.append_nil]
  omega

/-- A receiver that respects the length does so at every block it can come to. -/
theorem LengthRespected.inLength (h : LengthRespected L blockSize n stream) :
    BlocksInLength L blockSize n stream := by
  intro outs rem k out hb hrem hk hdec
  by_contra hlong
  obtain ⟨fuel, q, v, hrun, hover⟩ := exists_overrun hb (h.1 outs rem k hb) hrem hk hdec
    (Nat.not_le.mp hlong) (Proc.start (.initial .empty) stream) rfl 0 0
  have hle := (h.2 _ _ _ fuel 0 0 _ rfl).1 q v hrun
  omega

end

/-- **The announced length.**  The compressed receiver respects the announced length
exactly on those streams whose blocks decompress to at most what is missing. -/
theorem announcedLength_respected_iff (L : Lz4) (blockSize n : Nat) (stream : List UInt8)
    (hn : n < word64) :
    LengthRespected L blockSize n stream ↔ BlocksInLength L blockSize n stream := by
  refine ⟨LengthRespected.inLength, fun h => ⟨fun _ _ _ hb => BlocksInLength.counter hb hn h, ?_⟩⟩
  rintro F lossy eof fuel i id w rfl
  have hall := @ensures_staysBelow F lossy eof w L blockSize n fuel i id hn h
  refine ⟨fun q v hrun => ?_, fun r v hrun hr => ?_⟩
  · exact pos_le_of_ensures q ((hall.of_reaches hrun).mono fun _ _ hv => hv.1)
  · exact (hall.of_reaches hrun).2 hr

/-- Three bytes are announced, and come in one block. -/
theorem announcedLength_respected_threeBytes :
    LengthRespected shortLz4 12 3 [0, 0, 0, 4, 0x30, 1, 2, 3, 0, 0, 0, 0, 0, 0, 0, 6] := by
  refine (announcedLength_respected_iff _ _ _ _ (by decide)).mpr ?_
  have hblock : decompressed shortLz4 12
      [0, 0, 0, 4, 0x30, 1, 2, 3, 0, 0, 0, 0, 0, 0, 0, 6] = some [1, 2, 3] := by decide
  intro outs rem k out hb hrem _ hdec
  cases hb with
  | nil =>
    obtain rfl := Option.some.inj (hblock.symm.trans hdec)
    decide
  | @cons _ _ k _ out' outs _ _ hdec' _ hb' =>
    obtain rfl := Option.some.inj (hblock.symm.trans hdec')
    cases hb' with
    | nil => exact absurd rfl hrem
    | cons h0 => exact absurd rfl h0

/-- One byte is announced, and a block of two comes. -/
theorem announcedLength_respected_overrun :
    ¬ LengthRespected shortLz4 12 1 [0, 0, 0, 3, 0x20, 1, 2] := by
  intro h
  have hle := h.inLength [] 1 0 [1, 2] (.nil _ _) (by decide) (by decide) (by decide)
  exact absurd hle (by decide)

end IsrTransfer
