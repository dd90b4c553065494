import IsrTransfer.Scripted

/-!
# A sender's success

A sender that returns a checksum should have sent the whole file.  What its reads may give, for a
file of a certain content, is a judgment (`Readings`): pieces of the content one after the other,
and the end of the file only where the content ends --- or an error, at any point.  A read of
length zero gives nothing either, and looks like the end.

`isr_transmit_file_uncompressed` keeps this law.  `isr_transmit_file_compressed` does not look at
why its loop has ended: it takes an error for the end of the file, and so it takes the reads of
length zero that a block size of 0 leads to (`SoundWhen`).  Then the two do not agree either.

## Proof

The reads are the input: the file is a script of answers (`ensures_outcome`), so that the
statement is about every file whose reads may give them (`readings_of_file` says that a file's
reads are of this kind).  That the condition is enough follows from what any run leaves on the
wire, `Outcome`.  That it is needed follows from one run, in which nothing fails except what the
script says (`Undisturbed`): there the sender returns, and what it has sent shows what it did not
look at.

`senderSound_iff` has both directions and the agreement of the two modes.
-/

namespace IsrTransfer

open Effect Posix

variable {F : Faults} {lossy eof : Bool} {w : World}

/-! ## What reads may give -/

/-- What reads of at most `len` bytes of a file may give, if `content` is what is left of
it.  After the end or an error nothing matters any more. -/
inductive Readings (len : Nat) : List UInt8 → List (Option (List UInt8)) → Prop where
  | eof {content : List UInt8} {reads : List (Option (List UInt8))} :
      content = [] ∨ len = 0 → Readings len content (some [] :: reads)
  | error {content : List UInt8} {reads : List (Option (List UInt8))} :
      Readings len content (none :: reads)
  | data {c content : List UInt8} {reads : List (Option (List UInt8))} :
      c ≠ [] → c.length ≤ len → Readings len content reads →
        Readings len (c ++ content) (some c :: reads)

/-- The reads of a file give nothing else. -/
theorem readings_of_file {fd : Fd} {len : Nat} {s s' s'' : Sys} {cs : List (List UInt8)}
    (h : ReadRun fd len s cs s') : ∀ {content : List UInt8}, s.script = none →
      s.unread fd = some content →
      (ReadEnd fd len s' s'' → Readings len content (cs.map some ++ [some []])) ∧
      (ReadError F fd len s' s'' → Readings len content (cs.map some ++ [none])) := by
  induction h with
  | nil s =>
    intro content hs hu
    refine ⟨fun he => .eof ?_, fun _ => .error⟩
    unfold ReadEnd Sys.ReadStep at he
    rw [hs, hu] at he
    simp only at he
    split at he
    · exact (‹_ ∨ _› : len = 0 ∨ content = []).symm
    · obtain ⟨k, hk, -, hlen, hnil, -⟩ := he
      have h0 := congrArg List.length (Option.some.inj hnil)
      rw [List.length_take, List.length_nil] at h0
      omega
  | @cons s s₁ s₂ c cs hr hne hrun ih =>
    intro content hs hu
    obtain ⟨rest, rfl, hs₁, hu₁⟩ := (ReadRun.cons hr hne (.nil _)).unread hs hu
    have hlen := ((ReadRun.cons hr hne (.nil _)).mem c (by simp)).2
    obtain ⟨hend, herr⟩ := ih hs₁ hu₁
    rw [List.flatten_singleton]
    exact ⟨fun he => .data hne hlen (hend he), fun he => .data hne hlen (herr he)⟩

/-- Reads up to the end of the file give all of it. -/
theorem Readings.flatten {len : Nat} {content : List UInt8}
    {reads : List (Option (List UInt8))} (h : Readings len content reads) (hlen : len ≠ 0)
    (herr : endsInError len reads = false) : (chunksRead len reads).flatten = content := by
  induction h with
  | eof hend =>
    rw [hend.resolve_right hlen, chunksRead, if_pos List.take_nil]
    rfl
  | error => exact absurd herr (by simp [endsInError])
  | @data c content reads hne hc _ ih =>
    have htake : c.take len = c := List.take_of_length_le hc
    rw [endsInError, htake, if_neg hne] at herr
    rw [chunksRead, htake, if_neg hne, List.flatten_cons, ih herr]

/-- Nothing is read that is not in the file. -/
theorem Readings.flatten_le {len : Nat} {content : List UInt8}
    {reads : List (Option (List UInt8))} (h : Readings len content reads) :
    (chunksRead len reads).flatten <+: content := by
  induction h with
  | eof _ =>
    rw [chunksRead, if_pos List.take_nil]
    exact List.nil_prefix
  | error => exact List.nil_prefix
  | @data c content reads hne hc _ ih =>
    have htake : c.take len = c := List.take_of_length_le hc
    rw [chunksRead, htake, if_neg hne, List.flatten_cons]
    exact (List.prefix_append_right_inj c).mpr ih

/-- To ask for more than there is makes no difference. -/
theorem Readings.mono {len len' : Nat} {content : List UInt8}
    {reads : List (Option (List UInt8))} (h : Readings len content reads) (hle : len ≤ len') :
    chunksRead len' reads = chunksRead len reads ∧
      endsInError len' reads = endsInError len reads := by
  induction h with
  | eof _ => simp [chunksRead, endsInError]
  | error => exact ⟨rfl, rfl⟩
  | @data c content reads hne hc _ ih =>
    have htake : c.take len = c := List.take_of_length_le hc
    have htake' : c.take len' = c := List.take_of_length_le (hc.trans hle)
    rw [chunksRead, chunksRead, endsInError, endsInError, htake, htake', if_neg hne, if_neg hne,
      if_neg hne, if_neg hne, ih.1, ih.2]
    exact ⟨rfl, rfl⟩

/-! ## The law -/

/-- The data stream for the chunks `cs` without the checksum. -/
def streamBody (L : Lz4) (flags : UInt8) (blockSize : Nat) (cs : List (List UInt8)) :
    List UInt8 :=
  if hasFlag flags isrFlagUseCompression then frames L blockSize cs else cs.flatten

theorem dataStream_eq (L : Lz4) (flags : UInt8) (blockSize : Nat) (cs : List (List UInt8)) :
    dataStream L flags blockSize cs =
      streamBody L flags blockSize cs ++ toBe 8 (checksumOf cs.flatten) := by
  unfold dataStream streamBody
  split <;> rfl

/-- Whatever the network and the allocations do: a sender that does not return -1 has met
no error, has sent all of `content` and then the checksum, and returns the checksum; and
after a failed read it does not send one. -/
def SenderSound (L : Lz4) (flags : UInt8) (blockSize : Nat) (content : List UInt8)
    (reads : List (Option (List UInt8))) : Prop :=
  ∀ (F : Faults) (lossy eof : Bool) (fuel size : Nat) (fd : Fd) (w : World), F.reads = false →
    w.sys.script = some ⟨size, reads⟩ → ∀ r v,
    Reaches (machine F lossy eof) (transmitFile L fuel fd flags blockSize) w (.ret r) v →
    (r ≠ -1 → endsInError (readLength flags blockSize) reads = false ∧
      ∃ cs, cs.flatten = content ∧
        (hasFlag flags isrFlagUseCompression → Compress L blockSize cs) ∧
        v.tx = w.tx ++ (streamBody L flags blockSize cs ++ toBe 8 (checksumOf content)) ∧
        r = toInt64 (checksumOf content)) ∧
    (endsInError (readLength flags blockSize) reads = true → ∃ data, v.tx = w.tx ++ data ∧
      data <+: streamBody L flags blockSize (chunksRead (readLength flags blockSize) reads))

/-- With compression: a chunk does not compress, or else there is no error, and a read of
a whole block gives something unless the file is empty. -/
def SoundWhen (L : Lz4) (flags : UInt8) (blockSize : Nat) (content : List UInt8)
    (reads : List (Option (List UInt8))) : Prop :=
  hasFlag flags isrFlagUseCompression →
    ¬ Compress L blockSize (chunksRead blockSize reads) ∨
      endsInError blockSize reads = false ∧ (blockSize ≠ 0 ∨ content = [])

/-- Without faults the two senders succeed on the same reads. -/
def SendersAgree (L : Lz4) (blockSize : Nat) (reads : List (Option (List UInt8))) : Prop :=
  ∀ (eof : Bool) (fuel size size' : Nat) (fd fd' : Fd) (w w' : World),
    w.sys.script = some ⟨size, reads⟩ → w'.sys.script = some ⟨size', reads⟩ → ∀ r r' v v',
    Reaches (machine Faults.none false eof) (isrTransmitFileUncompressed fuel fd) w (.ret r) v →
    Reaches (machine Faults.none false eof) (isrTransmitFileCompressed L fuel fd' blockSize) w'
      (.ret r') v' →
    (0 ≤ r ↔ 0 ≤ r')

/-! ## What a sender does on a script

Both senders read until a read gives nothing, and differ in what they do with an error.  One
rule covers them (`ensures_outcome`): the chunks that have been read, what has been sent of
them, and whether the error has been noticed. -/

theorem frames_append (L : Lz4) (blockSize : Nat) (cs ds : List (List UInt8)) :
    frames L blockSize (cs ++ ds) = frames L blockSize cs ++ frames L blockSize ds := by
  simp [frames]

theorem streamBody_append (L : Lz4) (flags : UInt8) (blockSize : Nat) (cs ds : List (List UInt8)) :
    streamBody L flags blockSize cs <+: streamBody L flags blockSize (cs ++ ds) := by
  unfold streamBody
  split
  · rw [frames_append]
    exact List.prefix_append _ _
  · rw [List.flatten_append]
    exact List.prefix_append _ _

/-- What a run leaves on the wire, and returns. -/
structure Outcome (L : Lz4) (flags : UInt8) (blockSize : Nat)
    (reads : List (Option (List UInt8))) (w : World) (r : Int) (v : World) : Prop where
  success : r ≠ -1 →
    ¬ Noticed L flags blockSize (chunksRead (readLength flags blockSize) reads)
      (endsInError (readLength flags blockSize) reads) ∧
    v.tx = w.tx ++ dataStream L flags blockSize (chunksRead (readLength flags blockSize) reads) ∧
    r = toInt64 (checksumOf (chunksRead (readLength flags blockSize) reads).flatten)
  /-- A failed read that is noticed is not followed by a checksum. -/
  failedRead : endsInError (readLength flags blockSize) reads = true →
    Noticed L flags blockSize (chunksRead (readLength flags blockSize) reads) true →
    ∃ data, v.tx = w.tx ++ data ∧
      data <+: streamBody L flags blockSize (chunksRead (readLength flags blockSize) reads)

/-- A sender that fails has sent a part of the data, or else no read has failed. -/
theorem Outcome.of_failure {L : Lz4} {flags : UInt8} {blockSize : Nat}
    {reads : List (Option (List UInt8))} {s : Sys} {data : List UInt8}
    (h : endsInError (readLength flags blockSize) reads = true →
      Noticed L flags blockSize (chunksRead (readLength flags blockSize) reads) true →
      data <+: streamBody L flags blockSize (chunksRead (readLength flags blockSize) reads)) :
    Outcome L flags blockSize reads w (-1) ((w.withSys s).sent data) :=
  ⟨fun hr => absurd rfl hr, fun herr hnoticed => ⟨data, rfl, h herr hnoticed⟩⟩

/-- The rule for the two senders, with what a failure leaves on the wire. -/
theorem ensures_outcome (L : Lz4) (fuel size : Nat) (fd : Fd) (flags : UInt8) (blockSize : Nat)
    (reads : List (Option (List UInt8))) (hF : F.reads = false)
    (hs : w.sys.script = some ⟨size, reads⟩) :
    Ensures (machine F lossy eof) Anything (transmitFile L fuel fd flags blockSize)
      (Outcome L flags blockSize reads w) w := by
  by_cases hflag : hasFlag flags isrFlagUseCompression
  · have hlen : readLength flags blockSize = blockSize := if_pos hflag
    have hbody : ∀ cs, streamBody L flags blockSize cs = frames L blockSize cs :=
      fun _ => if_pos hflag
    have hnoticed : ∀ cs err, Noticed L flags blockSize cs err ↔ ¬ Compress L blockSize cs := by
      intro cs err
      unfold Noticed
      rw [if_pos hflag]
    have hmalloc : Outcome L flags blockSize reads w (-1) w := by
      have h := @Outcome.of_failure w L flags blockSize reads w.sys [] fun _ _ => List.nil_prefix
      rwa [Proc.withSys_self, Proc.sent_nil] at h
    rw [transmitFile, if_pos hflag]
    unfold isrTransmitFileCompressed
    rw [ensures_bind, ensures_malloc]
    refine ⟨trivial, ?_, fun _ => hmalloc⟩
    rw [if_neg (by decide), ensures_bind, ensures_malloc]
    refine ⟨trivial, ?_, fun _ => hmalloc⟩
    rw [if_neg (by decide)]
    change Ensures _ _ (isrTransmitFileCompressedLoop L fd blockSize fuel (checksumOf [])) _ w
    refine ensures_isrTransmitFileCompressedLoop L permits_anything fuel ?_ ?_ ?_ ?_ ?_
    · exact fun _ _ _ _ _ => trivial
    · -- the end of the file, or an error that is not looked at
      intro cs s s' hrun hcompress he
      have hcs : chunksRead blockSize reads = cs := hrun.script_stop hF hs he
      refine ⟨fun _ => ?_, fun _ hno => ?_⟩
      · rw [hlen, hcs, hnoticed, not_not, dataStream_eq, hbody, List.nil_append]
        exact ⟨hcompress, rfl, rfl⟩
      · rw [hlen, hcs, hnoticed] at hno
        exact absurd hcompress hno
    · intro cs c s hrun _ _
      obtain ⟨ds, hcs⟩ := hrun.script_prefix hs
      refine Outcome.of_failure fun _ _ => ?_
      rw [hlen, hcs, List.append_assoc, ← hbody]
      exact streamBody_append L flags blockSize cs _
    · intro _ cs s data hrun hdata
      obtain ⟨ds, hcs⟩ := hrun.script_prefix hs
      refine Outcome.of_failure fun _ _ => ?_
      rw [hlen, hcs]
      rw [← hbody] at hdata
      exact hdata.trans (streamBody_append L flags blockSize cs ds)
    · intro _ cs s s' data hrun hcompress he
      have hcs : chunksRead blockSize reads = cs := hrun.script_stop hF hs he
      refine Outcome.of_failure fun _ hno => ?_
      rw [hlen, hcs, hnoticed] at hno
      exact absurd hcompress hno
  · have hlen : readLength flags blockSize = isrIoBufsize := if_neg hflag
    have hbody : ∀ cs, streamBody L flags blockSize cs = cs.flatten := fun _ => if_neg hflag
    have hnoticed : ∀ cs err, Noticed L flags blockSize cs err ↔ err = true := by
      intro cs err
      unfold Noticed
      rw [if_neg hflag]
    rw [transmitFile, if_neg hflag]
    change Ensures _ _ (isrTransmitFileUncompressedLoop fd fuel (checksumOf [])) _ w
    refine ensures_isrTransmitFileUncompressedLoop permits_anything fuel ?_ ?_ ?_ ?_ ?_
    · exact fun _ _ _ _ => trivial
    · intro cs s s' hrun he
      obtain ⟨hcs, herr⟩ := hrun.script_end hs he
      refine ⟨fun _ => ?_, fun herr' _ => ?_⟩
      · rw [hlen, hcs, hnoticed, herr, dataStream_eq, hbody, List.nil_append]
        exact ⟨Bool.false_ne_true, rfl, rfl⟩
      · rw [hlen, herr] at herr'
        exact absurd herr' Bool.false_ne_true
    · intro cs s s' hrun he
      obtain ⟨hcs, -⟩ := hrun.script_error hF hs he
      refine Outcome.of_failure fun _ _ => ?_
      exact ⟨[], by rw [List.append_nil, hlen, hcs, hbody]⟩
    · intro _ cs s data hrun hdata
      obtain ⟨ds, hcs⟩ := hrun.script_prefix hs
      refine Outcome.of_failure fun _ _ => ?_
      rw [hlen, hcs]
      rw [← hbody] at hdata
      exact hdata.trans (streamBody_append L flags blockSize cs ds)
    · intro _ cs s s' data hrun he
      obtain ⟨-, herr⟩ := hrun.script_end hs he
      refine Outcome.of_failure fun herr' _ => ?_
      rw [hlen, herr] at herr'
      exact absurd herr' Bool.false_ne_true

/-- What a run without faults returns, and leaves on the wire. -/
structure Undisturbed (L : Lz4) (flags : UInt8) (blockSize : Nat)
    (reads : List (Option (List UInt8))) (w : World) (r : Int) (v : World) : Prop where
  good : ¬ Noticed L flags blockSize (chunksRead (readLength flags blockSize) reads)
      (endsInError (readLength flags blockSize) reads) →
    r = toInt64 (checksumOf (chunksRead (readLength flags blockSize) reads).flatten) ∧
      v.tx = w.tx ++ dataStream L flags blockSize (chunksRead (readLength flags blockSize) reads)
  bad : Noticed L flags blockSize (chunksRead (readLength flags blockSize) reads)
      (endsInError (readLength flags blockSize) reads) → r = -1

theorem ensures_undisturbed {A : Guard (NetOp OsOp) World} (hP : Permits A) (L : Lz4)
    (fuel size : Nat) (fd : Fd) (flags : UInt8) (blockSize : Nat)
    (reads : List (Option (List UInt8))) (eof : Bool) (hs : w.sys.script = some ⟨size, reads⟩)
    (hspin : fuel ≤ (chunksRead (readLength flags blockSize) reads).length →
      ∀ v, A v (.sys .spin)) :
    Ensures (machine Faults.none false eof) A (transmitFile L fuel fd flags blockSize)
      (Undisturbed L flags blockSize reads w) w := by
  refine ensures_transmitFile_script hP rfl hs hspin (fun hgood _ _ => ?_) (fun hbad _ _ _ => ?_)
  · exact ⟨fun _ => ⟨rfl, rfl⟩, fun hbad => absurd hbad hgood⟩
  · refine ⟨fun hgood => ?_, fun _ => rfl⟩
    rcases hbad with hbad | hbad | hbad
    · exact absurd hbad Bool.false_ne_true
    · exact absurd hbad Bool.false_ne_true
    · exact absurd hbad hgood

/-- Without faults a sender comes to an end. -/
theorem exists_sent (L : Lz4) (size : Nat) (fd : Fd) (flags : UInt8) (blockSize : Nat)
    (reads : List (Option (List UInt8))) (eof : Bool) (hs : w.sys.script = some ⟨size, reads⟩)
    {n : Nat} (hn : (chunksRead (readLength flags blockSize) reads).length < n) :
    ∃ r v, Reaches (machine Faults.none false eof) (transmitFile L n fd flags blockSize) w
      (.ret r) v ∧ Undisturbed L flags blockSize reads w r v := by
  have hterm : Terminates (machine Faults.none false eof) (transmitFile L n fd flags blockSize)
      (Undisturbed L flags blockSize reads w) w :=
    ensures_undisturbed (permits_answered Faults.none false eof) L n size fd flags blockSize reads
      eof hs fun hle => absurd hn (Nat.not_lt.mpr hle)
  exact hterm.exists_ret

/-! ## Exactly when the law holds

One direction is the rule.  For the other nothing fails but the reads, so that the sender gets
to its end, and the law says what its reads must have been. -/

section Law

variable {L : Lz4} {flags : UInt8} {blockSize : Nat} {content : List UInt8}
  {reads : List (Option (List UInt8))}

/-- A sender that notices what is wrong with its reads is sound. -/
theorem senderSound_of_soundWhen (h : Readings (readLength flags blockSize) content reads)
    (hwhen : SoundWhen L flags blockSize content reads) :
    SenderSound L flags blockSize content reads := by
  intro F lossy eof fuel size fd w hF hs r v hrun
  have hout : Outcome L flags blockSize reads w r v :=
    (ensures_outcome L fuel size fd flags blockSize reads hF hs).of_reaches hrun
  by_cases hflag : hasFlag flags isrFlagUseCompression
  · have hlen : readLength flags blockSize = blockSize := if_pos hflag
    have hnoticed : ∀ err, Noticed L flags blockSize (chunksRead blockSize reads) err ↔
        ¬ Compress L blockSize (chunksRead blockSize reads) := by
      intro err
      unfold Noticed
      rw [if_pos hflag]
    rw [hlen] at h
    obtain ⟨hsuccess, hfailed⟩ := hout
    rw [hlen] at hsuccess hfailed ⊢
    refine ⟨fun hr => ?_, fun herr => ?_⟩
    · obtain ⟨hgood, htx, hr⟩ := hsuccess hr
      rw [hnoticed, not_not] at hgood
      obtain ⟨herr, hempty⟩ := (hwhen hflag).resolve_left (not_not.mpr hgood)
      have hall : (chunksRead blockSize reads).flatten = content := by
        rcases hempty with hpos | hnil
        · exact h.flatten hpos herr
        · have hle := h.flatten_le
          rw [hnil] at hle ⊢
          exact List.prefix_nil.mp hle
      refine ⟨herr, _, hall, fun _ => hgood, ?_, ?_⟩
      · rw [htx, dataStream_eq, hall]
      · rw [hr, hall]
    · refine hfailed herr ((hnoticed _).mpr ?_)
      rcases hwhen hflag with hno | ⟨herr', -⟩
      · exact hno
      · exact absurd (herr'.symm.trans herr) Bool.false_ne_true
  · have hlen : readLength flags blockSize = isrIoBufsize := if_neg hflag
    have hnoticed : ∀ cs err, Noticed L flags blockSize cs err ↔ err = true := by
      intro cs err
      unfold Noticed
      rw [if_neg hflag]
    refine ⟨fun hr => ?_, fun herr => hout.failedRead herr ((hnoticed _ _).mpr rfl)⟩
    obtain ⟨hgood, htx, hr⟩ := hout.success hr
    rw [hnoticed, Bool.not_eq_true] at hgood
    have hall : (chunksRead (readLength flags blockSize) reads).flatten = content := by
      refine h.flatten ?_ hgood
      rw [hlen]
      decide
    refine ⟨hgood, _, hall, fun hflag' => absurd hflag' hflag, ?_, ?_⟩
    · rw [htx, dataStream_eq, hall]
    · rw [hr, hall]

/-- A run that nothing disturbs shows what a sender does not look at. -/
theorem SenderSound.soundWhen (h : SenderSound L flags blockSize content reads) :
    SoundWhen L flags blockSize content reads := by
  intro hflag
  have hlen : readLength flags blockSize = blockSize := if_pos hflag
  have hbody : ∀ cs, streamBody L flags blockSize cs = frames L blockSize cs :=
    fun _ => if_pos hflag
  by_contra hnot
  rw [not_or, not_not, not_and_or, not_or, not_not, Bool.not_eq_false] at hnot
  obtain ⟨hcompress, hwrong⟩ := hnot
  obtain ⟨r, v, hrun, hrest⟩ := @exists_sent (Proc.start (changing ⟨0, reads⟩) []) L 0
    ⟨none, 0⟩ flags blockSize reads false rfl _ (Nat.lt_succ_self _)
  have hquiet : ¬ Noticed L flags blockSize (chunksRead (readLength flags blockSize) reads)
      (endsInError (readLength flags blockSize) reads) := by
    unfold Noticed
    rwa [if_pos hflag, not_not, hlen]
  obtain ⟨hr, htx⟩ := hrest.good hquiet
  obtain ⟨hsuccess, hfailed⟩ := h _ _ _ _ _ _ _ rfl rfl r v hrun
  rw [hlen] at hr htx hsuccess hfailed
  rcases hwrong with herr | ⟨hzero, hne⟩
  · -- the checksum comes after an error
    obtain ⟨data, hdata, hle⟩ := hfailed herr
    obtain rfl := List.append_cancel_left (htx.symm.trans hdata)
    have hlong := hle.length_le
    rw [dataStream_eq, List.length_append, length_toBe] at hlong
    omega
  · -- nothing can be read, and nothing has been
    have hnil : chunksRead blockSize reads = [] := by
      rw [hzero]
      cases reads with
      | nil => rfl
      | cons x reads => cases x <;> simp [chunksRead]
    rw [hnil] at hr
    have hr0 : r = 0 := hr
    obtain ⟨-, cs, hcs, -, hsent, -⟩ := hsuccess (by rw [hr0]; decide)
    rw [htx, hnil, dataStream_eq] at hsent
    have hframes := (List.append_inj' (List.append_cancel_left hsent) (by simp)).1
    rw [hbody, hbody] at hframes
    cases cs with
    | nil => exact hne hcs.symm
    | cons c cs =>
      have hlong := congrArg List.length hframes
      rw [frames_nil, frames_cons, List.length_append, frame, List.length_append, length_toBe,
        List.length_nil] at hlong
      omega

/-- **The two senders agree** exactly if no read fails, or if the bytes read before add up
to a number that is negative as a result. -/
theorem sendersAgree_iff (hL : L.RoundTrip blockSize)
    (h : Readings (min isrIoBufsize blockSize) content reads) :
    SendersAgree L blockSize reads ↔ endsInError blockSize reads = false ∨
      toInt64 (checksumOf (chunksRead blockSize reads).flatten) < 0 := by
  obtain ⟨hcs, herr⟩ := h.mono (Nat.min_le_right _ _)
  obtain ⟨hcs', herr'⟩ := h.mono (Nat.min_le_left _ _)
  rw [← hcs] at hcs'
  rw [← herr] at herr'
  have hcompress : Compress L blockSize (chunksRead blockSize reads) := by
    intro c hc
    obtain ⟨hne, hlen⟩ := chunksRead_mem c hc
    exact (hL c hne hlen).1
  have hlen : readLength 0 blockSize = isrIoBufsize := rfl
  have hlen' : readLength isrFlagUseCompression blockSize = blockSize := rfl
  -- what the two return: -1 after an error for the one, the sum in any case for the other
  have hplain : ∀ {w r v}, Undisturbed L 0 blockSize reads w r v →
      (endsInError blockSize reads = true → r = -1) ∧ (endsInError blockSize reads = false →
        r = toInt64 (checksumOf (chunksRead blockSize reads).flatten)) := by
    rintro w r v ⟨hgood, hbad⟩
    rw [hlen, hcs', herr'] at hgood hbad
    refine ⟨hbad, fun hno => (hgood ?_).1⟩
    rw [hno]
    exact Bool.false_ne_true
  have hblocks : ∀ {w r v}, Undisturbed L isrFlagUseCompression blockSize reads w r v →
      r = toInt64 (checksumOf (chunksRead blockSize reads).flatten) :=
    fun hrun => (hrun.good (not_not.mpr hcompress)).1
  constructor
  · intro hagree
    rw [← Bool.not_eq_true, or_iff_not_imp_left, not_not]
    intro hfails
    obtain ⟨r, v, hr, hout⟩ := @exists_sent (Proc.start (changing ⟨0, reads⟩) []) L 0 ⟨none, 0⟩ 0
      blockSize reads false rfl ((chunksRead blockSize reads).length + 1)
      (by rw [hlen, hcs']; exact Nat.lt_succ_self _)
    obtain ⟨r', v', hr', hout'⟩ := @exists_sent (Proc.start (changing ⟨0, reads⟩) []) L 0
      ⟨none, 0⟩ isrFlagUseCompression blockSize reads false rfl _ (Nat.lt_succ_self _)
    have hiff := hagree false _ 0 0 ⟨none, 0⟩ ⟨none, 0⟩ _ _ rfl rfl r r' v v' hr hr'
    rw [(hplain hout).1 hfails, hblocks hout'] at hiff
    omega
  · intro hwhen eof fuel size size' fd fd' w w' hs hs' r r' v v' hr hr'
    have hout : Undisturbed L 0 blockSize reads w r v :=
      (ensures_undisturbed permits_anything L fuel size fd 0 blockSize reads eof hs
        fun _ _ => trivial).of_reaches hr
    have hout' : Undisturbed L isrFlagUseCompression blockSize reads w' r' v' :=
      (ensures_undisturbed permits_anything L fuel size' fd' isrFlagUseCompression blockSize reads
        eof hs' fun _ _ => trivial).of_reaches hr'
    rw [hblocks hout']
    cases hends : endsInError blockSize reads with
    | false => rw [(hplain hout).2 hends]
    | true =>
      have hneg := hwhen.resolve_left (by simp [hends])
      rw [(hplain hout).1 hends]
      omega

/-- **A sender's success.**  Without compression a sender that succeeds has always sent
the whole file; with compression, exactly if no error and no empty read is taken for the
end of the file.  For the block sizes that LZ4 takes the two agree exactly if no read
fails. -/
theorem senderSound_iff (L : Lz4) (blockSize : Nat) :
    (∀ flags content reads, Readings (readLength flags blockSize) content reads →
      (SenderSound L flags blockSize content reads ↔ SoundWhen L flags blockSize content reads)) ∧
    (0 < blockSize → blockSize ≤ lz4MaxInputSize → L.RoundTrip blockSize → ∀ content reads,
      Readings (min isrIoBufsize blockSize) content reads →
      (SendersAgree L blockSize reads ↔ endsInError blockSize reads = false ∨
        toInt64 (checksumOf (chunksRead blockSize reads).flatten) < 0)) :=
  ⟨fun _ _ _ h => ⟨SenderSound.soundWhen, senderSound_of_soundWhen h⟩,
    fun _ _ hL _ _ h => sendersAgree_iff hL h⟩

end Law

/-- A file of three bytes, read as a whole. -/
theorem senderSound_threeBytes :
    SenderSound shortLz4 isrFlagUseCompression 12 [1, 2, 3] [some [1, 2, 3], some []] ∧
      SendersAgree shortLz4 12 [some [1, 2, 3], some []] := by
  have hreads : Readings 12 ([1, 2, 3] ++ []) [some [1, 2, 3], some []] :=
    .data (by decide) (by decide) (.eof (Or.inl rfl))
  have hlz4 : shortLz4.RoundTrip 12 := shortLz4_roundTrip (by decide)
  obtain ⟨hsound, hagree⟩ := senderSound_iff shortLz4 12
  refine ⟨(hsound isrFlagUseCompression _ _ hreads).mpr fun _ => Or.inr (by decide), ?_⟩
  exact (hagree (by decide) (by decide) hlz4 _ _ hreads).mpr (Or.inl (by decide))

/-- With compression: a read that fails after the first byte, and a block size of 0. -/
theorem senderSound_compressed :
    ¬ SenderSound shortLz4 isrFlagUseCompression 12 [1, 2, 3] [some [1], none] ∧
      ¬ SenderSound shortLz4 isrFlagUseCompression 0 [1, 2, 3] [some []] := by
  constructor
  · intro h
    rcases h.soundWhen rfl with hno | ⟨hno, -⟩
    · exact hno (by unfold Compress; decide)
    · exact absurd hno (by decide)
  · intro h
    rcases h.soundWhen rfl with hno | ⟨-, hno⟩
    · exact hno (by unfold Compress; decide)
    · exact absurd hno (by decide)

end IsrTransfer
