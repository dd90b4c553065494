import IsrTransfer.ClientOutcomes

/-!
# A file that is sent although something fails

When a read fails, the sender of a plain stream stops, and the sender of blocks ends the
stream as if the file had come to its end.  Either way what has been sent is a beginning of
the file, and a checksum at most (`SentOf`).  A receiver that has been told the length of the
whole file and does not fail has taken all of it: what is missing cannot be made up for by the
eight bytes of a checksum.  This holds however the network behaves, and whatever else fails.

For a plain stream this is a count of bytes, since a receiver that succeeds has read the length
and eight bytes more.  For blocks it is not: a receiver that has not got its length takes the
checksum for the head of a block, and might find a block in it.  But then it needs the eight bytes
of a checksum behind that, and they are not there (`flatten_of_blocks`).

So the recursive operations need no promise about reads and allocations: a file that has been
transferred with success is the file.
-/

namespace IsrTransfer

open Effect Posix

variable {F G : Faults} {lossy eof : Bool} {w : World}
variable {L : Lz4} {flags : UInt8} {blockSize : Nat} {content data : List UInt8}

/-- What may be sent of a file. -/
def SentOf (L : Lz4) (flags : UInt8) (blockSize : Nat) (content data : List UInt8) : Prop :=
  if hasFlag flags isrFlagUseCompression then
    ∃ cs tail, cs.flatten <+: content ∧ (∀ c ∈ cs, c ≠ [] ∧ c.length ≤ blockSize) ∧
      data = frames L blockSize cs ++ tail ∧ tail.length ≤ 8
  else data <+: content ∨ data = plainStream content

theorem sentOf_nil : SentOf L flags blockSize content [] := by
  unfold SentOf
  split
  · exact ⟨[], [], List.nil_prefix, fun _ h => absurd h List.not_mem_nil, rfl, Nat.zero_le _⟩
  · exact Or.inl List.nil_prefix

theorem ReadRun.flatten_prefix {s s' : Sys} {fd : Fd} {len : Nat} {cs : List (List UInt8)}
    (h : ReadRun fd len s cs s') (hs : s.script = none) (hu : s.unread fd = some content) :
    cs.flatten <+: content := by
  obtain ⟨rest, hrest, -, -⟩ := h.unread hs hu
  exact ⟨rest, hrest.symm⟩

/-- What the sender gives of a file, whatever fails. -/
theorem gives_sent {fuel b : Nat}
    (hb : hasFlag flags isrFlagUseCompression = true → b = blockSize) :
    Gives G (fun _ => True) (fun fd => transmitFile L fuel fd flags b)
      (SentOf L flags blockSize) := by
  intro u fd content _ hs hu
  unfold transmitFile SentOf
  split
  case isTrue hflag =>
    obtain rfl := hb hflag
    have hsent : ∀ {cs : List (List UInt8)} {s : Sys} {tail : List UInt8},
        ReadRun fd b u.sys cs s → tail.length ≤ 8 → ∃ cs' tail', cs'.flatten <+: content ∧
          (∀ c ∈ cs', c ≠ [] ∧ c.length ≤ b) ∧
          frames L b cs ++ tail = frames L b cs' ++ tail' ∧ tail'.length ≤ 8 :=
      fun {cs _ tail} hrun htail => ⟨cs, tail, hrun.flatten_prefix hs hu, hrun.mem, rfl, htail⟩
    have hnone : ∃ data, (∃ cs tail, cs.flatten <+: content ∧
        (∀ c ∈ cs, c ≠ [] ∧ c.length ≤ b) ∧ data = frames L b cs ++ tail ∧ tail.length ≤ 8) ∧
        u.tx = u.tx ++ data :=
      ⟨[], ⟨[], [], List.nil_prefix, fun _ h => absurd h List.not_mem_nil, rfl, Nat.zero_le _⟩,
        (List.append_nil _).symm⟩
    unfold isrTransmitFileCompressed
    rw [ensures_bind, ensures_malloc]
    refine ⟨trivial, ?_, fun _ => hnone⟩
    rw [if_neg (by decide), ensures_bind, ensures_malloc]
    refine ⟨trivial, ?_, fun _ => hnone⟩
    rw [if_neg (by decide)]
    change Ensures _ _ (isrTransmitFileCompressedLoop L fd b fuel (checksumOf [])) _ u
    refine ensures_isrTransmitFileCompressedLoop L permits_anything fuel ?_ ?_ ?_ ?_ ?_
    · exact fun _ _ _ _ _ => trivial
    · exact fun cs s s' hrun _ _ => ⟨_, hsent hrun (length_toBe _ _).le, rfl⟩
    · intro cs c s hrun _ _
      have hall := hrun.flatten_prefix hs hu
      rw [List.flatten_append] at hall
      refine ⟨frames L b cs, ⟨cs, [], ?_, ?_, (List.append_nil _).symm, Nat.zero_le _⟩, rfl⟩
      · exact (List.prefix_append _ _).trans hall
      · exact fun c' hc' => hrun.mem c' (List.mem_append_left _ hc')
    · exact fun h => absurd h (by decide)
    · exact fun h => absurd h (by decide)
  case isFalse hflag =>
    change Ensures _ _ (isrTransmitFileUncompressedLoop fd fuel (checksumOf [])) _ u
    refine ensures_isrTransmitFileUncompressedLoop permits_anything fuel ?_ ?_ ?_ ?_ ?_
    · exact fun _ _ _ _ => trivial
    · intro cs s s' hrun hend
      have hall := hrun.unread_end (by decide) hs hu hend
      refine ⟨_, Or.inr ?_, rfl⟩
      rw [List.nil_append, hall, plainStream]
    · exact fun cs s s' hrun _ => ⟨_, Or.inl (hrun.flatten_prefix hs hu), rfl⟩
    · exact fun h => absurd h (by decide)
    · exact fun h => absurd h (by decide)

/-- If the sender does not fail, the stream that it has sent is complete in its own way. -/
theorem ensures_transmitFile_sent {A : Guard (NetOp OsOp) World} (hP : Permits A) {fuel : Nat}
    {fd : Fd} (hspin : ∀ v, A v (.sys .spin)) (hs : w.sys.script = none)
    (hu : w.sys.unread fd = some content) :
    Ensures (machine F lossy eof) A (transmitFile L fuel fd flags blockSize)
      (fun c v => w.sys.OnlyRead v.sys ∧
        (c ≠ -1 → ∃ data, SentOf L flags blockSize content data ∧ v.tx = w.tx ++ data)) w := by
  have hfail : ∀ {v : World}, w.sys.OnlyRead v.sys → w.sys.OnlyRead v.sys ∧
      ((-1 : Int) ≠ -1 → ∃ data, SentOf L flags blockSize content data ∧ v.tx = w.tx ++ data) :=
    fun h => ⟨h, fun hne => absurd rfl hne⟩
  unfold transmitFile
  split
  case isTrue hflag =>
    unfold isrTransmitFileCompressed
    rw [ensures_bind, ensures_malloc]
    refine ⟨hP.malloc _ _, ?_, fun _ => hfail (.refl _)⟩
    rw [if_neg (by decide), ensures_bind, ensures_malloc]
    refine ⟨hP.malloc _ _, ?_, fun _ => hfail (.refl _)⟩
    rw [if_neg (by decide)]
    change Ensures _ _ (isrTransmitFileCompressedLoop L fd blockSize fuel (checksumOf [])) _ w
    have hend : ∀ {s s'}, ReadEnd fd blockSize s s' ∨ ReadError F fd blockSize s s' →
        s.OnlyRead s' := fun h => h.elim Sys.onlyRead_of_readStep ReadError.onlyRead
    refine ensures_isrTransmitFileCompressedLoop L hP fuel ?_ ?_ ?_ ?_ ?_
    · exact fun _ _ _ _ _ => hspin _
    · intro cs s s' hrun _ hstop
      refine ⟨hrun.onlyRead.trans (hend hstop), fun _ => ⟨_, ?_, rfl⟩⟩
      rw [SentOf, if_pos hflag]
      exact ⟨cs, _, hrun.flatten_prefix hs hu, hrun.mem, rfl, (length_toBe _ _).le⟩
    · exact fun _ _ _ hrun _ _ => hfail hrun.onlyRead
    · exact fun _ _ _ _ hrun _ => hfail hrun.onlyRead
    · exact fun _ _ _ _ _ hrun _ hstop => hfail (hrun.onlyRead.trans (hend hstop))
  case isFalse hflag =>
    change Ensures _ _ (isrTransmitFileUncompressedLoop fd fuel (checksumOf [])) _ w
    refine ensures_isrTransmitFileUncompressedLoop hP fuel ?_ ?_ ?_ ?_ ?_
    · exact fun _ _ _ _ => hspin _
    · intro cs s s' hrun hend
      have hall := hrun.unread_end (by decide) hs hu hend
      refine ⟨hrun.onlyRead.trans (Sys.onlyRead_of_readStep hend), fun _ => ⟨_, ?_, rfl⟩⟩
      rw [SentOf, if_neg hflag, List.nil_append, hall, plainStream]
      exact Or.inr rfl
    · exact fun _ _ _ hrun herr => hfail (hrun.onlyRead.trans herr.onlyRead)
    · exact fun _ _ _ _ hrun _ => hfail hrun.onlyRead
    · exact fun _ _ _ _ _ hrun hend =>
        hfail (hrun.onlyRead.trans (Sys.onlyRead_of_readStep hend))

/-- Blocks that make up the whole length are all of the file. -/
theorem flatten_of_blocks {cs outs : List (List UInt8)} {tail : List UInt8} {k : Nat}
    (hL : L.RoundTrip blockSize) (hmax : blockSize ≤ lz4MaxInputSize)
    (hcs : ∀ c ∈ cs, c ≠ [] ∧ c.length ≤ blockSize) (hpre : cs.flatten <+: content)
    (hlen : content.length < word64) (htail : tail.length ≤ 8)
    (hb : Blocks L blockSize content.length (frames L blockSize cs ++ tail) outs 0 k)
    (hk : k + 8 ≤ (frames L blockSize cs ++ tail).length) : outs.flatten = content := by
  obtain ⟨missing, rfl⟩ := hpre
  rw [List.length_append] at hlen hb hk
  have hhead := blocks_frames_add hL hmax tail missing.length cs hcs hlen
  obtain ⟨more, k', rfl, rfl, hmore⟩ := hhead.extend hb
  rw [List.drop_left] at hmore
  cases hm : missing with
  | nil =>
    subst hm
    cases hmore with
    | nil => rw [List.append_nil, List.append_nil]
    | cons h0 => exact absurd rfl h0
  | cons b bs =>
    -- the blocks that are missing would be in the tail, and the checksum after them
    subst hm
    cases hmore with
    | cons _ _ _ _ _ => omega

/-- What the receiver makes of it: if it does not fail, it has taken the whole file. -/
theorem ensures_receiveFile_sent {fuel : Nat} {fd : Fd} (hblocks : BlocksOk L flags blockSize)
    (hlen : content.length < word64) (hsent : SentOf L flags blockSize content w.rx) :
    Ensures (machine F lossy eof) Anything
      (receiveFile L fuel fd flags blockSize content.length)
      (fun r v => ∃ out k, v = taken w fd out k ∧ (¬ Failed r → out = content)) w := by
  have hfail : ∀ {out : List UInt8} {k : Nat}, ∃ out' k', taken w fd out k = taken w fd out' k' ∧
      (¬ Failed (-1) → out' = content) :=
    fun {out k} => ⟨out, k, rfl, fun h => absurd (Or.inl rfl) h⟩
  unfold receiveFile
  unfold SentOf at hsent
  split
  case isTrue hflag =>
    rw [if_pos hflag] at hsent
    obtain ⟨cs, tail, hpre, hcs, hrx, htail⟩ := hsent
    obtain ⟨-, hmax, hL⟩ := hblocks hflag
    have hnone : ∃ out k, w = taken w fd out k ∧ (¬ Failed (-1) → out = content) :=
      ⟨[], 0, by rw [taken_nil, Proc.received_zero], fun h => absurd (Or.inl rfl) h⟩
    unfold isrReceiveFileCompressed
    rw [ensures_bind, ensures_malloc]
    refine ⟨trivial, ?_, fun _ => hnone⟩
    rw [if_neg (by decide), ensures_bind, ensures_malloc]
    refine ⟨trivial, ?_, fun _ => hnone⟩
    rw [if_neg (by decide)]
    change Ensures _ _ (isrReceiveFileCompressedLoop L fd blockSize fuel _ (checksumOf [])) _ w
    refine ensures_isrReceiveFileCompressedLoop permits_anything fuel ?_
    constructor
    · exact fun _ _ _ _ _ _ => trivial
    · exact fun _ _ _ _ _ _ _ _ => trivial
    · exact fun _ _ _ _ _ _ _ _ => trivial
    · exact fun _ _ _ _ _ _ => trivial
    · intro outs k hb hk
      rw [hrx] at hb hk
      exact ⟨_, _, rfl, fun _ => flatten_of_blocks hL hmax hcs hpre hlen htail hb hk⟩
    · exact fun _ _ _ _ _ _ _ => hfail
    · exact fun _ _ _ _ _ _ _ _ _ _ => hfail
    · exact fun _ _ _ _ _ _ _ _ _ _ _ => hfail
  case isFalse hflag =>
    rw [if_neg hflag] at hsent
    change Ensures _ _ (isrReceiveFileUncompressedLoop fd _ _ (checksumOf [])) _ w
    refine ensures_isrReceiveFileUncompressedLoop permits_anything _ (Nat.le_refl _) ?_
    constructor
    · exact fun _ _ _ _ _ _ _ _ _ _ => trivial
    · intro hall
      refine ⟨_, _, rfl, fun _ => ?_⟩
      rcases hsent with hpre | hrx
      · -- a beginning of the file has no room for a checksum
        have hle := hpre.length_le
        omega
      · rw [hrx, plainStream, List.take_left]
    · exact fun _ _ _ _ _ _ _ => hfail

end IsrTransfer
