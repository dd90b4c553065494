import IsrTransfer.RoundTrip
import IsrTransfer.Server

/-!
# Streaming a file that others change

On a script the results of the reads are given, so what a sender streams is a
function of the script: the chunks up to the first read that gives nothing
(`chunksRead`), in one of the two forms of the data stream (`dataStream`).

`Carries` reads the stream from the other side: which bytes of a file there are in
front of the checksum, after decompression.  It does not mention the sender, and a
stream carries one sequence of bytes only.

A script stands for whatever happens to the file between two calls.  A read gives what the
script says, cut to the length that was asked for, or fails if it says so; so the chunks depend
on how much the sender asks for, and the two forms may read different bytes of the same file.
The size that `stat` reports is another entry of the script, and nothing connects the two: that
is the point of it.

A stream of blocks is cut at the lengths that stand in it (`Unpacks`).  Where the blocks end
cannot be seen from the blocks themselves; it is known because eight bytes come after them.
-/

namespace IsrTransfer

open Effect Posix

variable {F : Faults} {lossy eof : Bool} {A : Guard (NetOp OsOp) World} {w : World}

/-! ## Scripts -/

/-- The results of reads of at most `len` bytes, as long as they are neither empty nor
an error. -/
def chunksRead (len : Nat) : List (Option (List UInt8)) → List (List UInt8)
  | some x :: reads => if x.take len = [] then [] else x.take len :: chunksRead len reads
  | _ => []

/-- What comes after those is an error. -/
def endsInError (len : Nat) : List (Option (List UInt8)) → Bool
  | some x :: reads => if x.take len = [] then false else endsInError len reads
  | none :: _ => true
  | [] => false

/-- One read on a script. -/
theorem readStep_script {s s' : Sys} {fd : Fd} {len : Nat} {r : Option (List UInt8)}
    {sc : Script} (hs : s.script = some sc) (h : s.ReadStep fd len r s') :
    (sc.reads = [] ∧ r = some [] ∧ s' = s) ∨
      ∃ x xs, sc.reads = x :: xs ∧ r = x.map (List.take len) ∧
        s'.script = some { sc with reads := xs } := by
  unfold Sys.ReadStep at h
  rw [hs] at h
  simp only at h
  split at h
  · exact Or.inl ⟨‹_›, h⟩
  · rename_i x xs hreads
    refine Or.inr ⟨x, xs, hreads, h.1, ?_⟩
    rw [h.2]

/-- Reads that gave something are what the script begins with. -/
theorem ReadRun.script {s s' : Sys} {fd : Fd} {len : Nat} {cs : List (List UInt8)}
    (h : ReadRun fd len s cs s') : ∀ {sc : Script}, s.script = some sc →
      ∃ reads, s'.script = some { sc with reads := reads } ∧
        chunksRead len sc.reads = cs ++ chunksRead len reads ∧
        endsInError len sc.reads = endsInError len reads := by
  induction h with
  | nil s => exact fun hs => ⟨_, hs, rfl, rfl⟩
  | cons hr hne _ ih =>
    intro sc hs
    rcases readStep_script hs hr with ⟨-, hc, -⟩ | ⟨x, xs, hreads, hc, hs'⟩
    · exact absurd (Option.some.inj hc) hne
    · obtain ⟨y, rfl, hy⟩ := Option.map_eq_some_iff.mp hc.symm
      obtain ⟨reads, hs'', hcs, herr⟩ := ih hs'
      rw [← hy] at hne
      refine ⟨reads, hs'', ?_, ?_⟩
      · rw [hreads, chunksRead, if_neg hne, hy, hcs, List.cons_append]
      · rw [hreads, endsInError, if_neg hne, herr]

/-- At the end of the file the script has nothing more. -/
theorem ReadRun.script_end {s s' s'' : Sys} {fd : Fd} {len : Nat} {cs : List (List UInt8)}
    {sc : Script} (h : ReadRun fd len s cs s') (hs : s.script = some sc)
    (he : ReadEnd fd len s' s'') :
    chunksRead len sc.reads = cs ∧ endsInError len sc.reads = false := by
  obtain ⟨reads, hs', hcs, herr⟩ := h.script hs
  rw [hcs, herr]
  rcases readStep_script hs' he with ⟨hreads, -, -⟩ | ⟨x, xs, hreads, hc, -⟩
  · obtain rfl : reads = [] := hreads
    exact ⟨List.append_nil cs, rfl⟩
  · obtain rfl : reads = x :: xs := hreads
    obtain ⟨y, rfl, hy⟩ := Option.map_eq_some_iff.mp hc.symm
    rw [chunksRead, endsInError, if_pos hy, if_pos hy]
    exact ⟨List.append_nil cs, rfl⟩

/-- A read that fails fails in the script. -/
theorem ReadRun.script_error {s s' s'' : Sys} {fd : Fd} {len : Nat} {cs : List (List UInt8)}
    {sc : Script} (h : ReadRun fd len s cs s') (hF : F.reads = false) (hs : s.script = some sc)
    (he : ReadError F fd len s' s'') :
    chunksRead len sc.reads = cs ∧ endsInError len sc.reads = true := by
  obtain ⟨reads, hs', hcs, herr⟩ := h.script hs
  rw [hcs, herr]
  rcases he with he | ⟨hf, -⟩
  · rcases readStep_script hs' he with ⟨-, hc, -⟩ | ⟨x, xs, hreads, hc, -⟩
    · exact absurd hc (by simp)
    · obtain rfl : reads = x :: xs := hreads
      obtain rfl : x = none := Option.map_eq_none_iff.mp hc.symm
      exact ⟨List.append_nil cs, rfl⟩
  · exact absurd hf (by simp [hF])

theorem ReadRun.script_stop {s s' s'' : Sys} {fd : Fd} {len : Nat} {cs : List (List UInt8)}
    {sc : Script} (h : ReadRun fd len s cs s') (hF : F.reads = false) (hs : s.script = some sc)
    (he : ReadEnd fd len s' s'' ∨ ReadError F fd len s' s'') : chunksRead len sc.reads = cs := by
  rcases he with he | he
  · exact (h.script_end hs he).1
  · exact (h.script_error hF hs he).1

/-- The chunks that have been read are those that the script begins with. -/
theorem ReadRun.script_prefix {s s' : Sys} {fd : Fd} {len : Nat} {cs : List (List UInt8)}
    {sc : Script} (h : ReadRun fd len s cs s') (hs : s.script = some sc) :
    ∃ ds, chunksRead len sc.reads = cs ++ ds := by
  obtain ⟨reads, -, hcs, -⟩ := h.script hs
  exact ⟨_, hcs⟩

/-- A file that is there has the size that the script says. -/
theorem statStep_script {s : Sys} {sc : Script} {path : List UInt8} {l : Loc} {i : Nat}
    (hs : s.script = some sc) (hl : s.resolve path = some l)
    (hi : s.fs.node l = some (.file i)) {r : Option (Bool × Nat)} :
    s.StatStep path r ↔ r = some (false, sc.size) := by
  unfold Sys.StatStep
  rw [hl]
  simp only [hi, hs]

/-- A file `/f` that others change as the script says. -/
def changing (sc : Script) : Sys :=
  { Sys.initial (FS.empty.makeFile [[0x66]]) with script := some sc }

/-! ## What is streamed -/

/-- How many bytes the sender asks of one read. -/
def readLength (flags : UInt8) (blockSize : Nat) : Nat :=
  if hasFlag flags isrFlagUseCompression then blockSize else isrIoBufsize

/-- The data stream for the chunks `cs`. -/
def dataStream (L : Lz4) (flags : UInt8) (blockSize : Nat) (cs : List (List UInt8)) :
    List UInt8 :=
  if hasFlag flags isrFlagUseCompression then compressedStream L blockSize cs
  else plainStream cs.flatten

/-- The sender of these chunks notices that something is wrong: a chunk that does not
compress, or else, without compression, a read that failed. -/
def Noticed (L : Lz4) (flags : UInt8) (blockSize : Nat) (cs : List (List UInt8))
    (err : Bool) : Prop :=
  if hasFlag flags isrFlagUseCompression then ¬ Compress L blockSize cs else err = true

/-- The rule for the two senders on a script. -/
theorem ensures_transmitFile_script (hP : Permits A) {L : Lz4} {fuel : Nat} {fd : Fd}
    {flags : UInt8} {blockSize : Nat} {sc : Script} {Q : Int → World → Prop}
    (hF : F.reads = false) (hs : w.sys.script = some sc)
    (hspin : fuel ≤ (chunksRead (readLength flags blockSize) sc.reads).length →
      ∀ v, A v (.sys .spin))
    (hend : ¬ Noticed L flags blockSize (chunksRead (readLength flags blockSize) sc.reads)
        (endsInError (readLength flags blockSize) sc.reads) → ∀ s, w.sys.OnlyRead s →
      Q (toInt64 (checksumOf (chunksRead (readLength flags blockSize) sc.reads).flatten))
        ((w.withSys s).sent
          (dataStream L flags blockSize (chunksRead (readLength flags blockSize) sc.reads))))
    (hfail : (lossy ∨ F.alloc ∨
      Noticed L flags blockSize (chunksRead (readLength flags blockSize) sc.reads)
        (endsInError (readLength flags blockSize) sc.reads)) → ∀ s data, w.sys.OnlyRead s →
      Q (-1) ((w.withSys s).sent data)) :
    Ensures (machine F lossy eof) A (transmitFile L fuel fd flags blockSize) Q w := by
  unfold transmitFile
  unfold readLength dataStream Noticed at *
  split
  case isTrue hflag =>
    simp only [hflag, if_true] at hspin hend hfail
    have hmalloc : F.alloc → Q (-1) w := by
      intro hf
      have h := hfail (Or.inr (Or.inl hf)) w.sys [] (Sys.OnlyRead.refl _)
      rwa [Proc.withSys_self, Proc.sent_nil] at h
    unfold isrTransmitFileCompressed
    rw [ensures_bind, ensures_malloc]
    refine ⟨hP.malloc _ _, ?_, hmalloc⟩
    rw [if_neg (by decide), ensures_bind, ensures_malloc]
    refine ⟨hP.malloc _ _, ?_, hmalloc⟩
    rw [if_neg (by decide)]
    change Ensures _ _ (isrTransmitFileCompressedLoop L fd blockSize fuel (checksumOf [])) Q w
    refine ensures_isrTransmitFileCompressedLoop L hP fuel ?_ ?_ ?_ ?_ ?_
    · intro cs s hrun _ hlen
      obtain ⟨ds, hcs⟩ := hrun.script_prefix hs
      refine hspin ?_ _
      rw [hcs, List.length_append]
      omega
    · intro cs s s' hrun hcompress he
      have hcs : chunksRead blockSize sc.reads = cs := hrun.script_stop hF hs he
      have honly : w.sys.OnlyRead s' := hrun.onlyRead.trans (onlyRead_of_stop he)
      have h := hend (by rw [hcs, not_not]; exact hcompress) s' honly
      rwa [hcs] at h
    · intro cs c s hrun _ hc
      obtain ⟨ds, hcs⟩ := hrun.script_prefix hs
      refine hfail (Or.inr (Or.inr fun hall => ?_)) s _ hrun.onlyRead
      exact hall c (by simp [hcs]) hc
    · exact fun hl _ s data hrun _ => hfail (Or.inl hl) s data hrun.onlyRead
    · exact fun hl _ _ s' data hrun _ he =>
        hfail (Or.inl hl) s' data (hrun.onlyRead.trans (onlyRead_of_stop he))
  case isFalse hflag =>
    simp only [hflag, if_false, Bool.false_eq_true] at hspin hend hfail
    change Ensures _ _ (isrTransmitFileUncompressedLoop fd fuel (checksumOf [])) Q w
    refine ensures_isrTransmitFileUncompressedLoop hP fuel ?_ ?_ ?_ ?_ ?_
    · intro cs s hrun hlen
      obtain ⟨ds, hcs⟩ := hrun.script_prefix hs
      refine hspin ?_ _
      rw [hcs, List.length_append]
      omega
    · intro cs s s' hrun he
      obtain ⟨hcs, herr⟩ := hrun.script_end hs he
      have h := hend (by simp [herr]) s' (hrun.onlyRead.trans (Sys.onlyRead_of_readStep he))
      rwa [hcs] at h
    · intro cs s s' hrun he
      obtain ⟨-, herr⟩ := hrun.script_error hF hs he
      exact hfail (Or.inr (Or.inr herr)) s' _ (hrun.onlyRead.trans he.onlyRead)
    · exact fun hl _ s data hrun _ => hfail (Or.inl hl) s data hrun.onlyRead
    · exact fun hl _ _ s' data hrun he =>
        hfail (Or.inl hl) s' data (hrun.onlyRead.trans (Sys.onlyRead_of_readStep he))

/-! ## What a stream carries -/

/-- `s` is a sequence of blocks, which decompress to `cs`. -/
inductive Unpacks (L : Lz4) (blockSize : Nat) : List UInt8 → List (List UInt8) → Prop where
  | nil : Unpacks L blockSize [] []
  | cons {s c : List UInt8} {cs : List (List UInt8)} :
      4 + blockLength s ≤ s.length → decompressed L blockSize s = some c → c ≠ [] →
        Unpacks L blockSize (s.drop (4 + blockLength s)) cs → Unpacks L blockSize s (c :: cs)

theorem Unpacks.unique {L : Lz4} {blockSize : Nat} {s : List UInt8} {cs ds : List (List UInt8)}
    (h : Unpacks L blockSize s cs) (h' : Unpacks L blockSize s ds) : cs = ds := by
  induction h generalizing ds with
  | nil =>
    cases h' with
    | nil => rfl
    | cons hlen => exact absurd hlen (by simp)
  | cons hlen hdec _ _ ih =>
    cases h' with
    | nil => exact absurd hlen (by simp)
    | cons _ hdec' _ hrest =>
      obtain rfl := Option.some.inj (hdec.symm.trans hdec')
      rw [ih hrest]

/-- The bytes of a file in a data stream: everything in front of the eight bytes of the
checksum, decompressed if need be. -/
def Carries (L : Lz4) (flags : UInt8) (blockSize : Nat) (stream data : List UInt8) : Prop :=
  ∃ body sum, stream = body ++ sum ∧ sum.length = 8 ∧
    if hasFlag flags isrFlagUseCompression then
      ∃ cs, Unpacks L blockSize body cs ∧ data = cs.flatten
    else data = body

/-- **A stream carries one sequence of bytes**: what is read off it does not depend on how
long it is said to be. -/
theorem Carries.unique {L : Lz4} {flags : UInt8} {blockSize : Nat} {stream a b : List UInt8}
    (ha : Carries L flags blockSize stream a) (hb : Carries L flags blockSize stream b) :
    a = b := by
  obtain ⟨body, sum, rfl, hsum, ha⟩ := ha
  obtain ⟨body', sum', heq, hsum', hb⟩ := hb
  obtain ⟨rfl, rfl⟩ := List.append_inj' heq (hsum.trans hsum'.symm)
  split at ha
  · obtain ⟨cs, hcs, rfl⟩ := ha
    rw [if_pos ‹_›] at hb
    obtain ⟨ds, hds, rfl⟩ := hb
    rw [hcs.unique hds]
  · rw [if_neg ‹_›] at hb
    rw [ha, hb]

/-- Without compression blocks of any size will do; with it they have to be of a size
that LZ4 takes. -/
def BlocksRoundTrip (L : Lz4) (blockSize : Nat) : Prop :=
  blockSize ≤ lz4MaxInputSize → L.RoundTrip blockSize

/-- Above the largest size nothing compresses. -/
theorem compress_nil_of_large {L : Lz4} {blockSize : Nat} (h : lz4MaxInputSize < blockSize)
    {cs : List (List UInt8)} (hcs : Compress L blockSize cs) : cs = [] := by
  cases cs with
  | nil => rfl
  | cons c cs =>
    refine absurd ?_ (hcs c List.mem_cons_self)
    have hle := L.compressDefault_le c (lz4CompressBound blockSize)
    rw [show lz4CompressBound blockSize = 0 from if_pos h] at hle
    unfold compressed
    rw [show lz4CompressBound blockSize = 0 from if_pos h]
    exact List.eq_nil_of_length_eq_zero (Nat.le_zero.mp hle)

theorem unpacks_frames {L : Lz4} {blockSize : Nat} (hL : L.RoundTrip blockSize)
    (hmax : blockSize ≤ lz4MaxInputSize) (cs : List (List UInt8)) :
    (∀ c ∈ cs, c ≠ [] ∧ c.length ≤ blockSize) →
      Unpacks L blockSize (frames L blockSize cs) cs := by
  induction cs with
  | nil => exact fun _ => .nil
  | cons c cs ih =>
    intro hcs
    obtain ⟨hne, hlen⟩ := hcs c List.mem_cons_self
    obtain ⟨hblock, hdec⟩ := decompressed_frame hL hmax (frames L blockSize cs) hne hlen
    rw [frames_cons]
    refine .cons ?_ hdec hne ?_
    · rw [hblock, List.length_append, length_frame]
      omega
    · rw [hblock, ← length_frame, List.drop_left]
      exact ih fun d hd => hcs d (List.mem_cons_of_mem c hd)

theorem chunksRead_mem {len : Nat} {reads : List (Option (List UInt8))} :
    ∀ c ∈ chunksRead len reads, c ≠ [] ∧ c.length ≤ len := by
  induction reads with
  | nil => simp [chunksRead]
  | cons x reads ih =>
    cases x with
    | none => simp [chunksRead]
    | some x =>
      rw [chunksRead]
      split
      · simp
      · intro c hc
        rcases List.mem_cons.mp hc with rfl | hc
        · exact ⟨‹_›, by rw [List.length_take]; omega⟩
        · exact ih c hc

/-- **The sender's stream carries what it has read.** -/
theorem carries_dataStream {L : Lz4} {flags : UInt8} {blockSize : Nat}
    {cs : List (List UInt8)} (hL : BlocksRoundTrip L blockSize)
    (hcs : ∀ c ∈ cs, c ≠ [] ∧ c.length ≤ readLength flags blockSize)
    (hcompress : hasFlag flags isrFlagUseCompression → Compress L blockSize cs) :
    Carries L flags blockSize (dataStream L flags blockSize cs) cs.flatten := by
  unfold Carries dataStream
  unfold readLength at hcs
  split
  case isTrue hflag =>
    rw [if_pos hflag] at hcs
    refine ⟨frames L blockSize cs, _, rfl, length_toBe _ _, cs, ?_, rfl⟩
    by_cases hmax : blockSize ≤ lz4MaxInputSize
    · exact unpacks_frames (hL hmax) hmax cs hcs
    · rw [compress_nil_of_large (by omega) (hcompress hflag)]
      exact .nil
  case isFalse hflag => exact ⟨cs.flatten, _, rfl, length_toBe _ _, rfl⟩

end IsrTransfer
