import IsrTransfer.Posix.Files
import IsrTransfer.Scripted

/-!
# A file that stays as it is

What `stat` reports of a file that nobody changes is what the reads add up to.  So the
sender streams what was announced, and a receiver that finds such a stream takes all of it
and does not fail.  The rules for the two say so for both modes at once; a receiver that
finds nothing at all fails.

`BlocksOk` is all that is asked of LZ4 and of the block size, and only where the compression
flag is set; `StreamOf` is what a stream for given content may look like, in the one mode or the
other.  The handlers and the operations of the client choose the mode by the flag, and so do
these rules; the two modes are not mentioned again.
-/

namespace IsrTransfer

open Effect Posix

variable {F : Faults} {eof : Bool} {A : Guard (NetOp OsOp) World} {w : World}
variable {L : Lz4} {flags : UInt8} {blockSize : Nat} {content stream : List UInt8}

/-! ## Files that nobody else changes

The reads of a file give its content in pieces, as long as nobody writes to it. -/

namespace Posix

variable {ρ α : Type} {F : Faults}

theorem Sys.openWrite_script (s : Sys) (path : List UInt8) :
    (s.openWrite path).2.script = s.script := by
  unfold Sys.openWrite
  split
  · rfl
  · split
    · rfl
    · split <;> rfl
    · rfl

theorem Sys.mkdir_script (s : Sys) (path : List UInt8) : (s.mkdir path).2.script = s.script := by
  unfold Sys.mkdir
  split
  · rfl
  · split
    · rfl
    · split
      · rfl
      · split <;> rfl

theorem Sys.write_script (s : Sys) (fd : Fd) (bs : List UInt8) :
    (s.write fd bs).script = s.script := by
  unfold Sys.write
  split <;> rfl

/-- A call does not make the files change. -/
theorem Sys.script_of_step {s s' : Sys} {op : OsOp ρ} {r : ρ} (h : Sys.step F s op r s')
    (hs : s.script = none) : s'.script = none := by
  cases op with
  | openRead p =>
    rcases h with h | ⟨-, -, rfl⟩
    · rw [show s' = (s.openRead p).2 from congrArg Prod.snd h, Sys.openRead_script, hs]
    · exact hs
  | openWrite p =>
    rcases h with h | ⟨-, -, rfl⟩
    · rw [show s' = (s.openWrite p).2 from congrArg Prod.snd h, Sys.openWrite_script, hs]
    · exact hs
  | mkdir p =>
    rcases h with h | ⟨-, -, rfl⟩
    · rw [show s' = (s.mkdir p).2 from congrArg Prod.snd h, Sys.mkdir_script, hs]
    · exact hs
  | read fd len =>
    rcases h with h | ⟨-, -, rfl⟩
    · cases hu : s.unread fd with
      | none =>
        simp only [Sys.ReadStep, hs, hu] at h
        rw [h.2, hs]
      | some content =>
        obtain ⟨_, _, _, _, hscript, -⟩ := readStep_unread hs hu h
        exact hscript
    · exact hs
  | write fd data =>
    rcases h with ⟨k, -, -, -, rfl⟩ | ⟨-, -, rfl⟩
    · rw [Sys.write_script, hs]
    · exact hs
  | close fd => rw [show s' = s from h, hs]
  | stat p => rw [h.2, hs]
  | realpath p => rw [h.2, hs]
  | opendir p => rw [h.2, hs]
  | malloc n => rw [h.2, hs]
  | print line => rw [show s' = _ from h]; exact hs
  | eprint line => rw [show s' = _ from h]; exact hs
  | spin => exact h.elim

/-- Neither does a run. -/
theorem script_of_reaches {lossy eof : Bool} {p q : Prog α} {w v : World}
    (h : Reaches (machine F lossy eof) p w q v) (hs : w.sys.script = none) :
    v.sys.script = none := by
  induction h with
  | refl => exact hs
  | @step ρ op k w w' v r q hr _ ih =>
    refine ih ?_
    cases op with
    | connect => rcases hr with ⟨-, input, rfl⟩ | ⟨-, -, rfl⟩ <;> exact hs
    | send data => rcases hr with ⟨k, -, -, -, rfl⟩ | ⟨-, -, rfl⟩ <;> exact hs
    | recv room len => rcases hr with ⟨k, -, -, -, -, rfl⟩ | ⟨-, -, rfl⟩ <;> exact hs
    | close =>
      obtain rfl : w' = w := hr
      exact hs
    | sys op =>
      obtain ⟨s', hs', rfl⟩ := hr
      exact Sys.script_of_step hs' hs

/-- A file that has been opened is still to be read. -/
theorem Sys.unread_of_openRead {s s' : Sys} {path : List UInt8} {k : Loc} {i : Nat} {fd : Fd}
    (hk : s.resolve path = some k) (hi : s.fs.node k = some (.file i))
    (h : s.openRead path = (some fd, s')) : s'.unread fd = some (s.fs.data i) := by
  rw [Sys.openRead_file hk hi] at h
  obtain ⟨hfd, rfl⟩ := Prod.mk.inj h
  obtain rfl := Option.some.inj hfd
  simp [Sys.unread]

theorem Sys.script_of_openRead {s s' : Sys} {path : List UInt8} {fd : Option Fd}
    (h : s.openRead path = (fd, s')) : s'.script = s.script := by
  rw [← Sys.openRead_script s path, h]

/-- What is in the file that a path leads to. -/
def Sys.bytesAt (s : Sys) (path : List UInt8) : Option (List UInt8) :=
  (s.resolve path).bind s.fs.contents

theorem Sys.bytesAt_of_resolve {s : Sys} {path : List UInt8} {k : Loc}
    (h : s.resolve path = some k) : s.bytesAt path = s.fs.contents k := by
  rw [Sys.bytesAt, h, Option.bind_some]

end Posix

/-! ## Streams

What a sender has made of a file that is read as a whole, and what a receiver makes of it. -/

/-- With compression, blocks are of a size that LZ4 takes, and decompress to themselves. -/
def BlocksOk (L : Lz4) (flags : UInt8) (blockSize : Nat) : Prop :=
  hasFlag flags isrFlagUseCompression = true →
    0 < blockSize ∧ blockSize ≤ lz4MaxInputSize ∧ L.RoundTrip blockSize

/-- `stream` is a data stream for `content`. -/
def StreamOf (L : Lz4) (flags : UInt8) (blockSize : Nat) (content stream : List UInt8) : Prop :=
  if hasFlag flags isrFlagUseCompression then
    ∃ cs : List (List UInt8), cs.flatten = content ∧ (∀ c ∈ cs, c ≠ [] ∧ c.length ≤ blockSize) ∧
      stream = compressedStream L blockSize cs
  else stream = plainStream content

/-- The length of a file is a 64-bit word. -/
theorem lt_word64 (hlen : content.length < 2 ^ 55) : content.length < word64 := by
  unfold word64
  omega

/-- The sender of a file that can be read streams all of it. -/
theorem ensures_transmitFile_whole (hP : Permits A) {fuel : Nat} {fd : Fd}
    {Q : Int → World → Prop} (hF : F.reads = false) (hFa : F.alloc = false)
    (hblocks : BlocksOk L flags blockSize) (hlen : content.length < 2 ^ 55)
    (hs : w.sys.script = none) (hu : w.sys.unread fd = some content)
    (hspin : fuel ≤ content.length → ∀ v, A v (.sys .spin))
    (hQ : ∀ stream s, w.sys.OnlyRead s → s.script = none →
      StreamOf L flags blockSize content stream →
      Q (byteSum content) ((w.withSys s).sent stream)) :
    Ensures (machine F false eof) A (transmitFile L fuel fd flags blockSize) Q w := by
  have hsum := (toInt64_checksumOf hlen).2
  unfold transmitFile
  unfold StreamOf at hQ
  split
  case isTrue hflag =>
    obtain ⟨hpos, -, hL⟩ := hblocks hflag
    simp only [hflag, if_true] at hQ
    refine ensures_isrTransmitFileCompressed hP rfl hF hFa hpos hL hs hu hspin ?_
    intro cs s honly hs' hcs hmem
    rw [hsum]
    exact hQ _ s honly hs' ⟨cs, hcs, hmem, rfl⟩
  case isFalse hflag =>
    simp only [hflag, if_false, Bool.false_eq_true] at hQ
    refine ensures_isrTransmitFileUncompressed hP rfl hF hs hu hspin fun s honly hs' => ?_
    rw [hsum]
    exact hQ _ s honly hs' rfl

/-- The receiver of such a stream takes it as a whole. -/
theorem ensures_receiveFile_whole (hP : Permits A) (hA : PermitsRecv A) {fuel : Nat} {fd : Fd}
    {rest : List UInt8} {Q : Int → World → Prop} (hFw : F.writes = false)
    (hFa : F.alloc = false) (hblocks : BlocksOk L flags blockSize)
    (hlen : content.length < 2 ^ 55) (hspin : ∀ v, A v (.sys .spin))
    (hstream : StreamOf L flags blockSize content stream) (hrx : w.rx = stream ++ rest)
    (hQ : Q (byteSum content) (taken w fd content stream.length)) :
    Ensures (machine F false eof) A
      (receiveFile L fuel fd flags blockSize content.length) Q w := by
  have hsum := (toInt64_checksumOf hlen).2
  unfold receiveFile
  unfold StreamOf at hstream
  split
  case isTrue hflag =>
    obtain ⟨-, hmax, hL⟩ := hblocks hflag
    rw [if_pos hflag] at hstream
    obtain ⟨cs, rfl, hmem, rfl⟩ := hstream
    refine ensures_isrReceiveFileCompressed hP hA rfl hFw hFa hL hmax hmem (lt_word64 hlen)
      (fun _ => hspin) hrx ?_
    rw [hsum]
    exact hQ
  case isFalse hflag =>
    rw [if_neg hflag] at hstream
    subst hstream
    refine ensures_isrReceiveFileUncompressed hP hA rfl hFw hrx ?_
    rw [hsum]
    exact hQ

/-- A receiver that finds nothing fails. -/
theorem ensures_receiveFile_nothing {fuel n : Nat} {fd : Fd} (hrx : w.rx = []) :
    Ensures (machine F false eof) Anything (receiveFile L fuel fd flags blockSize n)
      (fun r _ => r = -1) w := by
  unfold receiveFile
  have hlen : w.rx.length = 0 := by rw [hrx, List.length_nil]
  split
  · unfold isrReceiveFileCompressed
    rw [ensures_bind, ensures_malloc]
    refine ⟨trivial, ?_, fun _ => rfl⟩
    rw [if_neg (by decide), ensures_bind, ensures_malloc]
    refine ⟨trivial, ?_, fun _ => rfl⟩
    rw [if_neg (by decide)]
    change Ensures _ _ (isrReceiveFileCompressedLoop L fd blockSize fuel _ (checksumOf [])) _ w
    refine ensures_isrReceiveFileCompressedLoop permits_anything fuel ?_
    constructor
    · exact fun _ _ _ _ _ _ => trivial
    · exact fun _ _ _ _ _ _ _ _ => trivial
    · exact fun _ _ _ _ _ _ _ _ => trivial
    · exact fun _ _ _ _ _ _ => trivial
    · intro outs k _ h8
      omega
    · exact fun _ _ _ _ _ _ _ => rfl
    · exact fun _ _ _ _ _ _ _ _ _ _ => rfl
    · exact fun _ _ _ _ _ _ _ _ _ _ _ => rfl
  · change Ensures _ _ (isrReceiveFileUncompressedLoop fd _ _ (checksumOf [])) _ w
    refine ensures_isrReceiveFileUncompressedLoop permits_anything _ (Nat.le_refl _) ?_
    constructor
    · exact fun _ _ _ _ _ _ _ _ _ _ => trivial
    · intro h8
      omega
    · exact fun _ _ _ _ _ _ _ => rfl

end IsrTransfer
