import IsrTransfer.StreamRules

/-!
# The data stream carries the file

What the sender streams is determined by the chunks its reads gave: `plainStream`,
`compressedStream`.  A receiver that is told the right length takes exactly this
stream, whatever follows it, and writes the chunks one after the other.

The argument for the compressed stream is that taking blocks is deterministic
(`Blocks.extend`): a receiver that starts on a stream of good blocks can neither
leave it early nor run past its end.

## Chunks

How the reads cut up the file is up to the system, and so is how the socket cuts up what is
sent.  Of the chunks nothing matters but that they are not empty, that they are no longer than a
block, and that they make up the file (`ReadRun.unread_end`).  A chunk becomes a block that a
receiver finds again, with its length in front (`decompressed_frame`); this is where LZ4 has to
keep its promise, and where the block size must not be larger than LZ4 takes.

## Both together

`Receives` says of a receiver what it makes of a stream that it finds on its connection.  It
leaves the system of the receiver open, and what comes after the stream.  So `stream_roundTrip`
says of a sender that it ends, and that what it has sent is a stream of this kind; the two sides
run independently, each in a world of its own.
-/

namespace IsrTransfer

open Effect Posix

variable {F : Faults} {lossy eof : Bool} {A : Guard (NetOp OsOp) World}

/-! ## Reading a file that does not change -/

/-- One read of a file hands over a beginning of what is left. -/
theorem readStep_unread {s s' : Sys} {fd : Fd} {len : Nat} {r : Option (List UInt8)}
    {content : List UInt8} (hs : s.script = none) (hu : s.unread fd = some content)
    (h : s.ReadStep fd len r s') :
    ∃ c rest, r = some c ∧ content = c ++ rest ∧ s'.script = none ∧
      s'.unread fd = some rest ∧ (c = [] → 0 < len → content = []) := by
  unfold Sys.ReadStep at h
  rw [hs, hu] at h
  simp only at h
  split at h
  · rename_i hend
    obtain ⟨rfl, rfl⟩ := h
    exact ⟨[], content, rfl, rfl, hs, hu, fun _ h0 => hend.resolve_left (by omega)⟩
  · rename_i hmore
    obtain ⟨k, hk, -, hle, rfl, rfl⟩ := h
    refine ⟨content.take k, content.drop k, rfl, (List.take_append_drop k content).symm, hs, ?_, ?_⟩
    · rw [unread_advance, hu]
      rfl
    · intro hnil _
      have hlen := congrArg List.length hnil
      rw [List.length_take, List.length_nil] at hlen
      exact List.eq_nil_of_length_eq_zero (by omega)

/-- The chunks that reads of a file give are a beginning of it. -/
theorem ReadRun.unread {s s' : Sys} {fd : Fd} {len : Nat} {cs : List (List UInt8)}
    (h : ReadRun fd len s cs s') : ∀ {content : List UInt8}, s.script = none →
      s.unread fd = some content →
      ∃ rest, content = cs.flatten ++ rest ∧ s'.script = none ∧ s'.unread fd = some rest := by
  induction h with
  | nil s => exact fun hs hu => ⟨_, rfl, hs, hu⟩
  | cons hr _ _ ih =>
    intro content hs hu
    obtain ⟨c, rest, hc, hsplit, hs', hu', -⟩ := readStep_unread hs hu hr
    obtain ⟨rest', hrest, hs'', hu''⟩ := ih hs' hu'
    refine ⟨rest', ?_, hs'', hu''⟩
    rw [hsplit, hrest, Option.some.inj hc, List.flatten_cons, List.append_assoc]

/-- Reads that come to the end of a file have given all of it. -/
theorem ReadRun.unread_end {s s' s'' : Sys} {fd : Fd} {len : Nat} {cs : List (List UInt8)}
    {content : List UInt8} (h : ReadRun fd len s cs s') (hlen : 0 < len)
    (hs : s.script = none) (hu : s.unread fd = some content)
    (he : ReadEnd fd len s' s'') : cs.flatten = content := by
  obtain ⟨rest, hsplit, hs', hu'⟩ := h.unread hs hu
  obtain ⟨c, rest', hc, -, -, -, hend⟩ := readStep_unread hs' hu' he
  rw [hsplit, hend (Option.some.inj hc).symm hlen, List.append_nil]

/-- Reading a file fails only by an error of the system. -/
theorem ReadRun.unread_error {s s' s'' : Sys} {fd : Fd} {len : Nat} {cs : List (List UInt8)}
    {content : List UInt8} (h : ReadRun fd len s cs s') (hF : F.reads = false)
    (hs : s.script = none) (hu : s.unread fd = some content) :
    ¬ ReadError F fd len s' s'' := by
  obtain ⟨rest, -, hs', hu'⟩ := h.unread hs hu
  rintro (he | ⟨hf, -⟩)
  · obtain ⟨c, -, hc, -⟩ := readStep_unread hs' hu' he
    exact absurd hc (by simp)
  · exact absurd hf (by simp [hF])

/-- Non-empty chunks are no more than there are bytes. -/
theorem length_le_flatten {cs : List (List UInt8)} (h : ∀ c ∈ cs, c ≠ []) :
    cs.length ≤ cs.flatten.length := by
  induction cs with
  | nil => simp
  | cons c cs ih =>
    have hc : 0 < c.length := List.length_pos_iff.mpr (h c List.mem_cons_self)
    have hcs := ih fun d hd => h d (List.mem_cons_of_mem c hd)
    rw [List.flatten_cons, List.length_append, List.length_cons]
    omega

/-- Reads of a file give data no more often than it has bytes. -/
theorem ReadRun.length_le {s s' : Sys} {fd : Fd} {len : Nat} {cs : List (List UInt8)}
    {content : List UInt8} (h : ReadRun fd len s cs s') (hs : s.script = none)
    (hu : s.unread fd = some content) : cs.length ≤ content.length := by
  have hle := h.length_le_readsLeft
  unfold readsLeft at hle
  rwa [hs, hu] at hle

/-! ## Streams

A receiver that is told the length of the file takes exactly the blocks that the sender has
written (`blocks_frames`), and no others (`Blocks.unique`). -/

/-- The stream that carries the blocks of `cs`. -/
def compressedStream (L : Lz4) (blockSize : Nat) (cs : List (List UInt8)) : List UInt8 :=
  frames L blockSize cs ++ toBe 8 (checksumOf cs.flatten)

theorem toInt32_of_lt {n : Nat} (h : n < 2147483648) : toInt32 n = n := if_pos h

/-- The bound on the compressed length fits in an `int`. -/
theorem lz4CompressBound_lt {n : Nat} (h : n ≤ lz4MaxInputSize) :
    lz4CompressBound n < 2147483648 := by
  unfold lz4CompressBound
  unfold lz4MaxInputSize at *
  rw [if_neg (by omega)]
  omega

section Blocks

variable {L : Lz4} {blockSize : Nat}

/-- A block that was made of a chunk is the block a receiver finds. -/
theorem decompressed_frame (hL : L.RoundTrip blockSize) (hmax : blockSize ≤ lz4MaxInputSize)
    {c : List UInt8} (rest : List UInt8) (hne : c ≠ []) (hlen : c.length ≤ blockSize) :
    blockLength (frame L blockSize c ++ rest) = (compressed L blockSize c).length ∧
      decompressed L blockSize (frame L blockSize c ++ rest) = some c := by
  have hbound := lz4CompressBound_lt hmax
  have hle : (compressed L blockSize c).length ≤ lz4CompressBound blockSize :=
    L.compressDefault_le _ _
  have hblock : blockLength (frame L blockSize c ++ rest) = (compressed L blockSize c).length := by
    unfold blockLength frame
    rw [List.append_assoc, take_toBe_append, ofBe_toBe_of_lt (by omega)]
  refine ⟨hblock, ?_⟩
  have hbody : ((frame L blockSize c ++ rest).drop 4).take (compressed L blockSize c).length =
      compressed L blockSize c := by
    unfold frame
    rw [List.append_assoc, show 4 = 4 + 0 from rfl, drop_toBe_append, List.drop_zero,
      List.take_left]
  have hsize : blockSize < 2147483648 := by
    unfold lz4MaxInputSize at hmax
    omega
  unfold decompressed
  rw [hblock, hbody, toInt32_of_lt (by omega), toInt32_of_lt hsize]
  exact (hL c hne hlen).2

theorem length_frame (c : List UInt8) :
    (frame L blockSize c).length = 4 + (compressed L blockSize c).length := by
  simp [frame]

theorem word64_sub {n m : Nat} (hn : n < word64) (hm : m ≤ n) :
    (n + word64 - m) % word64 = n - m := by
  have h : n + word64 - m = n - m + word64 := by omega
  rw [h, Nat.add_mod_right, Nat.mod_eq_of_lt (by omega)]

/-- A receiver that is told a length of `m` bytes more finds the chunks, and then waits for
the rest. -/
theorem blocks_frames_add (hL : L.RoundTrip blockSize) (hmax : blockSize ≤ lz4MaxInputSize)
    (rest : List UInt8) (m : Nat) (cs : List (List UInt8)) :
    (∀ c ∈ cs, c ≠ [] ∧ c.length ≤ blockSize) → cs.flatten.length + m < word64 →
      Blocks L blockSize (cs.flatten.length + m) (frames L blockSize cs ++ rest) cs m
        (frames L blockSize cs).length := by
  induction cs with
  | nil =>
    intro _ _
    rw [List.flatten_nil, List.length_nil, Nat.zero_add]
    exact .nil _ _
  | cons c cs ih =>
    intro hcs hlt
    obtain ⟨hne, hlen⟩ := hcs c List.mem_cons_self
    have hpos : 0 < c.length := List.length_pos_iff.mpr hne
    rw [List.flatten_cons, List.length_append, Nat.add_assoc] at hlt ⊢
    rw [frames_cons, List.append_assoc, List.length_append, length_frame]
    obtain ⟨hblock, hdec⟩ :=
      decompressed_frame hL hmax (frames L blockSize cs ++ rest) hne hlen
    have hdrop : (frame L blockSize c ++ (frames L blockSize cs ++ rest)).drop
        (4 + blockLength (frame L blockSize c ++ (frames L blockSize cs ++ rest))) =
          frames L blockSize cs ++ rest := by
      rw [hblock, ← length_frame, List.drop_left]
    have hnext := ih (fun d hd => hcs d (List.mem_cons_of_mem c hd)) (by omega)
    rw [← hblock]
    refine .cons (by omega) ?_ hdec hne ?_
    · rw [hblock, List.length_append, length_frame]
      omega
    · rw [hdrop, word64_sub hlt (by omega), Nat.add_sub_cancel_left]
      exact hnext

/-- **A receiver that is told the right length finds the chunks**, and its counter is at zero
behind the last of them, whatever follows. -/
theorem blocks_frames (hL : L.RoundTrip blockSize) (hmax : blockSize ≤ lz4MaxInputSize)
    (rest : List UInt8) (cs : List (List UInt8)) (hcs : ∀ c ∈ cs, c ≠ [] ∧ c.length ≤ blockSize)
    (hlt : cs.flatten.length < word64) :
    Blocks L blockSize cs.flatten.length (frames L blockSize cs ++ rest) cs 0
      (frames L blockSize cs).length :=
  blocks_frames_add hL hmax rest 0 cs hcs hlt

/-- Taking blocks is deterministic: blocks that bring the counter to zero begin with
any other blocks taken off the same stream. -/
theorem Blocks.extend {n rem k₁ k₂ : Nat} {s : List UInt8} {outs₁ outs₂ : List (List UInt8)}
    (h₂ : Blocks L blockSize n s outs₂ rem k₂) : Blocks L blockSize n s outs₁ 0 k₁ →
      ∃ outs k, outs₁ = outs₂ ++ outs ∧ k₁ = k₂ + k ∧
        Blocks L blockSize rem (s.drop k₂) outs 0 k := by
  induction h₂ generalizing outs₁ k₁ with
  | nil rem s =>
    intro h₁
    exact ⟨outs₁, k₁, rfl, (Nat.zero_add _).symm, h₁⟩
  | cons hrem hlen hdec hne _ ih =>
    intro h₁
    cases h₁ with
    | nil => exact absurd rfl hrem
    | cons _ _ hdec₁ _ h₁ =>
      obtain rfl := Option.some.inj (hdec.symm.trans hdec₁)
      obtain ⟨outs, k, rfl, rfl, h⟩ := ih h₁
      refine ⟨outs, k, rfl, by omega, ?_⟩
      rwa [← List.drop_drop]

theorem Blocks.unique {n k₁ k₂ : Nat} {s : List UInt8} {outs₁ outs₂ : List (List UInt8)}
    (h₁ : Blocks L blockSize n s outs₁ 0 k₁) (h₂ : Blocks L blockSize n s outs₂ 0 k₂) :
    outs₂ = outs₁ ∧ k₂ = k₁ := by
  obtain ⟨outs, k, rfl, rfl, h⟩ := h₂.extend h₁
  cases h with
  | nil => exact ⟨(List.append_nil _).symm, rfl⟩
  | cons h0 => exact absurd rfl h0

end Blocks

/-! ## Taking a whole stream

The rules for the receivers list all ways in which a stream may turn out.  For a stream that is
there as a whole all but one are impossible. -/

/-- A guard that lets a program receive while there is something to receive. -/
def PermitsRecv (A : Guard (NetOp OsOp) World) : Prop :=
  ∀ w room len, 0 < len → w.rx ≠ [] → A w (.recv room len)

/-- What has to be shown when the whole of a plain stream is there. -/
theorem uncompressedCases_of_complete {fd : Fd} {Q : Int → World → Prop} {n : Nat}
    {done : List UInt8} {w : World} (hA : PermitsRecv A) (hlossy : lossy = false)
    (hF : F.writes = false) (hlen : n + 8 ≤ w.rx.length)
    (hQ : Q (verdict (done ++ w.rx.take n) ((w.rx.drop n).take 8))
      (taken w fd (w.rx.take n) (n + 8))) :
    UncompressedCases F lossy eof A fd Q n done w := by
  constructor
  · intro m k room len _ _ hk h0 _ hsum
    refine hA _ _ _ h0 (List.ne_nil_of_length_pos ?_)
    rw [taken_rx, List.length_drop]
    omega
  · exact fun _ => hQ
  · rintro m k _ _ _ hk (h | h | ⟨-, h⟩)
    · simp [hlossy] at h
    · simp [hF] at h
    · omega

/-- What has to be shown when a sequence of good blocks is there. -/
theorem compressedCases_of_complete {L : Lz4} {blockSize : Nat} {fd : Fd}
    {Q : Int → World → Prop} {fuel n k₁ : Nat} {done : List UInt8}
    {outs₁ : List (List UInt8)} {w : World} (hA : PermitsRecv A) (hlossy : lossy = false)
    (hF : F.writes = false) (h₁ : Blocks L blockSize n w.rx outs₁ 0 k₁)
    (hlen : k₁ + 8 ≤ w.rx.length) (hspin : fuel < outs₁.length → ∀ v, A v (.sys .spin))
    (hQ : Q (verdict (done ++ outs₁.flatten) ((w.rx.drop k₁).take 8))
      (taken w fd outs₁.flatten (k₁ + 8))) :
    CompressedCases F lossy eof A L blockSize fd Q fuel n done w := by
  -- where the counter is not at zero, one more good block is there
  have hnext : ∀ {outs rem k}, Blocks L blockSize n w.rx outs rem k → rem ≠ 0 →
      outs.length < outs₁.length ∧ k + (4 + blockLength (w.rx.drop k)) ≤ k₁ ∧
        ∃ out, decompressed L blockSize (w.rx.drop k) = some out ∧ out ≠ [] := by
    intro outs rem k hb hrem
    obtain ⟨outs', k', rfl, rfl, h⟩ := hb.extend h₁
    cases h with
    | nil => exact absurd rfl hrem
    | cons _ _ hdec hne _ =>
      rw [List.length_append, List.length_cons]
      exact ⟨by omega, by omega, _, hdec, hne⟩
  have hend : ∀ {outs k}, Blocks L blockSize n w.rx outs 0 k → outs = outs₁ ∧ k = k₁ :=
    fun hb => h₁.unique hb
  have hcan : ∀ {data j room len}, 0 < len → j < w.rx.length →
      A (taken w fd data j) (.recv room len) := by
    intro data j room len h0 hj
    refine hA _ _ _ h0 (List.ne_nil_of_length_pos ?_)
    rw [taken_rx, List.length_drop]
    omega
  constructor
  · intro outs rem k hb hrem hf
    have hlt := (hnext hb hrem).1
    exact hspin (by omega) _
  · intro outs rem k i hb hrem hi _
    have hle := (hnext hb hrem).2.1
    exact hcan (by omega) (by omega)
  · intro outs rem k i hb hrem hi _
    have hle := (hnext hb hrem).2.1
    exact hcan (by omega) (by omega)
  · intro outs k i hb hi _
    have hk := (hend hb).2
    exact hcan (by omega) (by omega)
  · intro outs k hb _
    obtain ⟨rfl, rfl⟩ := hend hb
    exact hQ
  · intro outs rem k hb hrem _ hbad
    obtain ⟨out, hdec, hne⟩ := (hnext hb hrem).2.2
    exact absurd (hbad out hdec) hne
  · rintro outs rem k j hb hkj h8 hblock hj (h | ⟨-, h⟩)
    · simp [hlossy] at h
    · by_cases hrem : rem = 0
      · subst hrem
        have hk := (hend hb).2
        have hlt := h8 rfl
        omega
      · have hle := (hnext hb hrem).2.1
        have hlt := hblock hrem
        omega
  · intro h
    simp [hF] at h

/-- A stream of good blocks is taken as a whole. -/
theorem ensures_isrReceiveFileCompressed {L : Lz4} {blockSize : Nat} {fd : Fd} {fuel : Nat}
    {cs : List (List UInt8)} {rest : List UInt8} {Q : Int → World → Prop} {w : World}
    (hP : Permits A) (hA : PermitsRecv A) (hlossy : lossy = false) (hFw : F.writes = false)
    (hFa : F.alloc = false) (hL : L.RoundTrip blockSize) (hmax : blockSize ≤ lz4MaxInputSize)
    (hcs : ∀ c ∈ cs, c ≠ [] ∧ c.length ≤ blockSize) (hlt : cs.flatten.length < word64)
    (hspin : fuel < cs.length → ∀ v, A v (.sys .spin))
    (hrx : w.rx = compressedStream L blockSize cs ++ rest)
    (hQ : Q (toInt64 (checksumOf cs.flatten))
      (taken w fd cs.flatten (compressedStream L blockSize cs).length)) :
    Ensures (machine F lossy eof) A
      (isrReceiveFileCompressed L fuel fd blockSize cs.flatten.length) Q w := by
  have hsplit : w.rx = frames L blockSize cs ++ (toBe 8 (checksumOf cs.flatten) ++ rest) := by
    rw [hrx, compressedStream, List.append_assoc]
  have hblocks := blocks_frames hL hmax (toBe 8 (checksumOf cs.flatten) ++ rest) cs hcs hlt
  rw [← hsplit] at hblocks
  have hwire : (w.rx.drop (frames L blockSize cs).length).take 8 =
      toBe 8 (checksumOf cs.flatten) := by
    rw [hsplit, List.drop_left, take_toBe_append]
  have hlen : (frames L blockSize cs).length + 8 ≤ w.rx.length := by
    rw [hsplit, List.length_append, List.length_append, length_toBe]
    omega
  have hall : (frames L blockSize cs).length + 8 = (compressedStream L blockSize cs).length := by
    rw [compressedStream, List.length_append, length_toBe]
  unfold isrReceiveFileCompressed
  rw [ensures_bind, ensures_malloc]
  refine ⟨hP.malloc _ _, ?_, fun h => absurd h (by simp [hFa])⟩
  rw [if_neg (by decide), ensures_bind, ensures_malloc]
  refine ⟨hP.malloc _ _, ?_, fun h => absurd h (by simp [hFa])⟩
  rw [if_neg (by decide)]
  change Ensures _ _ (isrReceiveFileCompressedLoop L fd blockSize fuel _ (checksumOf [])) Q w
  refine ensures_isrReceiveFileCompressedLoop hP fuel
    (compressedCases_of_complete hA hlossy hFw hblocks hlen hspin ?_)
  rw [hwire, List.nil_append, verdict_good, hall]
  exact hQ

/-- A plain stream is taken as a whole. -/
theorem ensures_isrReceiveFileUncompressed {fd : Fd} {data rest : List UInt8}
    {Q : Int → World → Prop} {w : World} (hP : Permits A) (hA : PermitsRecv A)
    (hlossy : lossy = false) (hFw : F.writes = false) (hrx : w.rx = plainStream data ++ rest)
    (hQ : Q (toInt64 (checksumOf data)) (taken w fd data (plainStream data).length)) :
    Ensures (machine F lossy eof) A (isrReceiveFileUncompressed fd data.length) Q w := by
  have hsplit : w.rx = data ++ (toBe 8 (checksumOf data) ++ rest) := by
    rw [hrx, plainStream, List.append_assoc]
  have hlen : data.length + 8 ≤ w.rx.length := by
    rw [hsplit, List.length_append, List.length_append, length_toBe]
    omega
  have hall : data.length + 8 = (plainStream data).length := by
    rw [plainStream, List.length_append, length_toBe]
  have htake : w.rx.take data.length = data := by rw [hsplit, List.take_left]
  have hwire : (w.rx.drop data.length).take 8 = toBe 8 (checksumOf data) := by
    rw [hsplit, List.drop_left, take_toBe_append]
  change Ensures _ _ (isrReceiveFileUncompressedLoop fd _ _ (checksumOf [])) Q w
  refine ensures_isrReceiveFileUncompressedLoop hP data.length (Nat.le_refl _)
    (uncompressedCases_of_complete hA hlossy hFw hlen ?_)
  rw [htake, hwire, List.nil_append, verdict_good, hall]
  exact hQ

/-! ## Sending a whole file -/

/-- A file that can be read is streamed as it is. -/
theorem ensures_isrTransmitFileUncompressed {fd : Fd} {fuel : Nat} {content : List UInt8}
    {Q : Int → World → Prop} {w : World} (hP : Permits A) (hlossy : lossy = false)
    (hF : F.reads = false) (hs : w.sys.script = none) (hu : w.sys.unread fd = some content)
    (hspin : fuel ≤ content.length → ∀ v, A v (.sys .spin))
    (hQ : ∀ s, w.sys.OnlyRead s → s.script = none →
      Q (toInt64 (checksumOf content)) ((w.withSys s).sent (plainStream content))) :
    Ensures (machine F lossy eof) A (isrTransmitFileUncompressed fuel fd) Q w := by
  change Ensures _ _ (isrTransmitFileUncompressedLoop fd fuel (checksumOf [])) Q w
  refine ensures_isrTransmitFileUncompressedLoop hP fuel ?_ ?_ ?_ ?_ ?_
  · intro cs s hrun hlen
    have hle := hrun.length_le hs hu
    exact hspin (by omega) _
  · intro cs s s' hrun hend
    have hall := hrun.unread_end (by decide) hs hu hend
    obtain ⟨rest, -, hs', hu'⟩ := hrun.unread hs hu
    obtain ⟨-, -, -, -, hs'', -⟩ := readStep_unread hs' hu' hend
    rw [List.nil_append, hall]
    exact hQ s' (hrun.onlyRead.trans (Sys.onlyRead_of_readStep hend)) hs''
  · exact fun cs s s' hrun herr => absurd herr (hrun.unread_error hF hs hu)
  · exact fun h => absurd h (by simp [hlossy])
  · exact fun h => absurd h (by simp [hlossy])

/-- A file that can be read is streamed in blocks. -/
theorem ensures_isrTransmitFileCompressed {L : Lz4} {blockSize : Nat} {fd : Fd} {fuel : Nat}
    {content : List UInt8} {Q : Int → World → Prop} {w : World} (hP : Permits A)
    (hlossy : lossy = false) (hF : F.reads = false) (hFa : F.alloc = false)
    (hpos : 0 < blockSize) (hL : L.RoundTrip blockSize) (hs : w.sys.script = none)
    (hu : w.sys.unread fd = some content)
    (hspin : fuel ≤ content.length → ∀ v, A v (.sys .spin))
    (hQ : ∀ cs s, w.sys.OnlyRead s → s.script = none → cs.flatten = content →
      (∀ c ∈ cs, c ≠ [] ∧ c.length ≤ blockSize) →
      Q (toInt64 (checksumOf content)) ((w.withSys s).sent (compressedStream L blockSize cs))) :
    Ensures (machine F lossy eof) A (isrTransmitFileCompressed L fuel fd blockSize) Q w := by
  unfold isrTransmitFileCompressed
  rw [ensures_bind, ensures_malloc]
  refine ⟨hP.malloc _ _, ?_, fun h => absurd h (by simp [hFa])⟩
  rw [if_neg (by decide), ensures_bind, ensures_malloc]
  refine ⟨hP.malloc _ _, ?_, fun h => absurd h (by simp [hFa])⟩
  rw [if_neg (by decide)]
  change Ensures _ _ (isrTransmitFileCompressedLoop L fd blockSize fuel (checksumOf [])) Q w
  refine ensures_isrTransmitFileCompressedLoop L hP fuel ?_ ?_ ?_ ?_ ?_
  · intro cs s hrun _ hlen
    have hle := hrun.length_le hs hu
    exact hspin (by omega) _
  · rintro cs s s' hrun - (hend | herr)
    · have hall := hrun.unread_end hpos hs hu hend
      obtain ⟨rest, -, hs', hu'⟩ := hrun.unread hs hu
      obtain ⟨-, -, -, -, hs'', -⟩ := readStep_unread hs' hu' hend
      have hq := hQ cs s' (hrun.onlyRead.trans (Sys.onlyRead_of_readStep hend)) hs'' hall hrun.mem
      rw [List.nil_append, hall]
      rwa [compressedStream, hall] at hq
    · exact absurd herr (hrun.unread_error hF hs hu)
  · intro cs c s hrun _ hc
    obtain ⟨hne, hlen⟩ := hrun.mem c (by simp)
    exact absurd hc (hL c hne hlen).1
  · exact fun h => absurd h (by simp [hlossy])
  · exact fun h => absurd h (by simp [hlossy])

/-! ## Both together -/

/-- A receiver that finds `stream` on its connection, whatever follows, returns `c`
and writes `content`, and what follows is still to be read. -/
def Receives (G : Faults) (receive : Fd → Prog Int) (stream content : List UInt8) (c : Int) :
    Prop :=
  ∀ (eof : Bool) (fd : Fd) (following : List UInt8) (w : World), w.rx = stream ++ following →
    Terminates (machine G false eof) (receive fd)
      (fun c' v => c' = c ∧ v.sys = w.sys.write fd content ∧ v.rx = following) w

theorem permitsRecv_answered (F : Faults) (lossy eof : Bool) :
    PermitsRecv (Answered (machine F lossy eof)) :=
  fun _ _ _ h hrx => answered_recv h (Or.inl hrx)

/-- **The data stream carries the file, in both modes.**  A file of fewer than
`2 ^ 55` bytes is sent, however the reads and the socket cut it up; the receiver
that is told its length gets all of it and the same checksum, and stops right after
the checksum. -/
theorem stream_roundTrip (L : Lz4) {blockSize : Nat} (hpos : 0 < blockSize)
    (hmax : blockSize ≤ lz4MaxInputSize) (hL : L.RoundTrip blockSize) {F G : Faults}
    (hFr : F.reads = false) (hFa : F.alloc = false) (hGw : G.writes = false)
    (hGa : G.alloc = false) {content : List UInt8} (hlen : content.length < 2 ^ 55)
    {sender : World} {fd : Fd} (hs : sender.sys.script = none)
    (hu : sender.sys.unread fd = some content) {fuel : Nat} (hfuel : content.length < fuel) :
    Terminates (machine F false eof) (isrTransmitFileUncompressed fuel fd)
      (fun c v => c = byteSum content ∧ ∃ stream, v.tx = sender.tx ++ stream ∧
        Receives G (fun fd' => isrReceiveFileUncompressed fd' content.length) stream content c)
      sender ∧
    Terminates (machine F false eof) (isrTransmitFileCompressed L fuel fd blockSize)
      (fun c v => c = byteSum content ∧ ∃ stream, v.tx = sender.tx ++ stream ∧
        Receives G (fun fd' => isrReceiveFileCompressed L fuel fd' blockSize content.length)
          stream content c)
      sender := by
  have hsum : toInt64 (checksumOf content) = byteSum content := (toInt64_checksumOf hlen).2
  have hword : content.length < word64 := by
    unfold word64
    omega
  have hP := permits_answered F false eof
  have hspin : fuel ≤ content.length → ∀ v, Answered (machine F false eof) v (.sys .spin) :=
    fun h => absurd hfuel (Nat.not_lt_of_le h)
  constructor
  · refine ensures_isrTransmitFileUncompressed hP rfl hFr hs hu hspin fun s _ _ => ?_
    refine ⟨hsum, plainStream content, rfl, ?_⟩
    intro eof' fd' following w hrx
    refine ensures_isrReceiveFileUncompressed (permits_answered G false eof')
      (permitsRecv_answered G false eof') rfl hGw hrx ⟨rfl, rfl, ?_⟩
    rw [taken_rx, hrx, List.drop_left]
  · refine ensures_isrTransmitFileCompressed hP rfl hFr hFa hpos hL hs hu hspin ?_
    rintro cs s - - rfl hcs
    refine ⟨hsum, compressedStream L blockSize cs, rfl, ?_⟩
    intro eof' fd' following w hrx
    have hcount := length_le_flatten fun c hc => (hcs c hc).1
    refine ensures_isrReceiveFileCompressed (permits_answered G false eof')
      (permitsRecv_answered G false eof') rfl hGw hGa hL hmax hcs hword
      (fun h => absurd h (by omega)) hrx
      ⟨rfl, rfl, ?_⟩
    rw [taken_rx, hrx, List.drop_left]

/-- A file `/f` of three bytes. -/
def threeBytes : Sys := Sys.initial ((FS.empty.makeFile [[0x66]]).setData 0 [1, 2, 3])

theorem stream_roundTrip_threeBytes :
    Terminates (machine Faults.none false true) (isrTransmitFileUncompressed 4 ⟨some 0, 0⟩)
      (fun c v => c = byteSum [1, 2, 3] ∧ ∃ stream, v.tx = [] ++ stream ∧
        Receives Faults.none (fun fd' => isrReceiveFileUncompressed fd' 3) stream [1, 2, 3] c)
      (Proc.start threeBytes []) ∧
    Terminates (machine Faults.none false true)
      (isrTransmitFileCompressed shortLz4 4 ⟨some 0, 0⟩ 8)
      (fun c v => c = byteSum [1, 2, 3] ∧ ∃ stream, v.tx = [] ++ stream ∧
        Receives Faults.none (fun fd' => isrReceiveFileCompressed shortLz4 4 fd' 8 3)
          stream [1, 2, 3] c)
      (Proc.start threeBytes []) := by
  have hlz4 : shortLz4.RoundTrip 8 := shortLz4_roundTrip (by decide)
  have hlen : ([1, 2, 3] : List UInt8).length < 2 ^ 55 := by decide
  have hfuel : ([1, 2, 3] : List UInt8).length < 4 := by decide
  exact stream_roundTrip shortLz4 (by decide) (by decide) hlz4 rfl rfl rfl rfl hlen rfl rfl hfuel

end IsrTransfer
