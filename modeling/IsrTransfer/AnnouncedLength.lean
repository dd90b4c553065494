import IsrTransfer.ClientRules
import IsrTransfer.Scripted

/-!
# The announced length and the streamed length

A sender announces what `stat` reports, and then streams until a read gives nothing.
The two are connected by nothing but the file, and a file can change in between.  So
the length that is announced is the length that is streamed exactly if the reads add
up to it, unless the sender notices an error on the way (`LengthKept`); this holds
for uploads and for downloads, with and without compression.

## What is said of the wire

`LengthAnnounced` is about bytes: there is a number, the wire begins with the announcement of it,
what follows is a stream that carries as many bytes, and a receiver that is told the number and is
content has written what was read from the file.  A number can be read off its announcement in one
way only (`sendCommandBytes_injective`, `confirmation_injective`), so that it is the size that was
reported, and the stream is the one that was sent.  What a receiver makes of a stream of the right
length is known (`acceptedAsWhole`).

## Histories of a file

What `stat` and the reads give is a script, and so the file may grow, shrink or be exchanged at
any moment, and a read may fail.  The script is the only thing that the condition depends on.  A
plain sender notices a read that fails.  A compressing sender does not; it only notices a block
that does not compress.  If they notice nothing, both return the sum of the bytes, and where this
number reads as an error code they are taken to have failed.

## Runs in which the condition matters

For one direction all runs are looked at, by the rules for the two senders
(`ensures_upload_announced`, `ensures_download_announced`).  For the other it is enough to have one
run in which nothing disturbs the sender (`upload_undisturbed`, `download_undisturbed`): the peer
answers as it is expected to, the network delivers everything, and the sender ends as if all was
well.  What it has put on the wire there can only be what was announced if the lengths are the
same.
-/

namespace IsrTransfer

open Effect Posix

variable {F : Faults} {lossy eof : Bool} {w : World}

/-- A receiver that is told the length `n` and accepts `stream` has written `data`. -/
def AcceptedAsWhole (L : Lz4) (flags : UInt8) (blockSize n : Nat)
    (stream data : List UInt8) : Prop :=
  ∀ (G : Faults) (fuel : Nat) (fd : Fd) (following : List UInt8) (u u' : World) (r : Int),
    u.rx = stream ++ following →
    Reaches (machine G true true) (receiveFile L fuel fd flags blockSize n) u (.ret r) u' →
    ¬ Failed r → u'.sys = u.sys.write fd data

/-- On the wire the announcement of a length `n` is followed by a stream that carries `n`
bytes of the file, and who accepts it has written `read`. -/
def LengthAnnounced (L : Lz4) (flags : UInt8) (blockSize : Nat)
    (announce : Nat → List UInt8) (read tx : List UInt8) : Prop :=
  ∃ n stream data, n < word64 ∧ tx = announce n ++ stream ∧
    Carries L flags blockSize stream data ∧ data.length = n ∧
    AcceptedAsWhole L flags blockSize n stream read

/-- When the streamed length is the announced one, or the sender fails: it notices an
error, or the reads add up to the reported size, or the checksum is taken for an error
code. -/
def LengthKept (L : Lz4) (flags : UInt8) (blockSize : Nat) (sc : Script)
    (code : Int → Prop) : Prop :=
  Noticed L flags blockSize (chunksRead (readLength flags blockSize) sc.reads)
      (endsInError (readLength flags blockSize) sc.reads) ∨
    (chunksRead (readLength flags blockSize) sc.reads).flatten.length = sc.size ∨
    code (toInt64 (checksumOf (chunksRead (readLength flags blockSize) sc.reads).flatten))

/-! ## Receivers -/

/-- A receiver that is told the right length takes the stream as a whole or not at
all. -/
theorem acceptedAsWhole {L : Lz4} {flags : UInt8} {blockSize : Nat} {cs : List (List UInt8)}
    (hL : BlocksRoundTrip L blockSize)
    (hcs : ∀ c ∈ cs, c ≠ [] ∧ c.length ≤ readLength flags blockSize)
    (hcompress : hasFlag flags isrFlagUseCompression → Compress L blockSize cs)
    (hlt : cs.flatten.length < word64) :
    AcceptedAsWhole L flags blockSize cs.flatten.length (dataStream L flags blockSize cs)
      cs.flatten := by
  intro G fuel fd following u u' r hrx hrun hr
  suffices h : Ensures (machine G true true) Anything
      (receiveFile L fuel fd flags blockSize cs.flatten.length)
      (fun r v => ¬ Failed r → v.sys = u.sys.write fd cs.flatten) u from h.of_reaches hrun hr
  have hfailed : ∀ v, ¬ Failed (-1) → v = u.sys.write fd cs.flatten :=
    fun v h => absurd (Or.inl rfl) h
  unfold receiveFile
  unfold dataStream at hrx
  unfold readLength at hcs
  split
  case isTrue hflag =>
    rw [if_pos hflag] at hrx hcs
    have hsplit : u.rx =
        frames L blockSize cs ++ (toBe 8 (checksumOf cs.flatten) ++ following) := by
      rw [hrx, compressedStream, List.append_assoc]
    have hblocks :
        Blocks L blockSize cs.flatten.length u.rx cs 0 (frames L blockSize cs).length := by
      rw [hsplit]
      by_cases hmax : blockSize ≤ lz4MaxInputSize
      · exact blocks_frames (hL hmax) hmax _ cs hcs hlt
      · rw [compress_nil_of_large (by omega) (hcompress hflag)]
        exact .nil _ _
    unfold isrReceiveFileCompressed
    rw [ensures_bind, ensures_malloc]
    refine ⟨trivial, ?_, fun _ => hfailed _⟩
    rw [if_neg (by decide), ensures_bind, ensures_malloc]
    refine ⟨trivial, ?_, fun _ => hfailed _⟩
    rw [if_neg (by decide)]
    change Ensures _ _ (isrReceiveFileCompressedLoop L fd blockSize fuel _ (checksumOf [])) _ u
    refine ensures_isrReceiveFileCompressedLoop permits_anything fuel ?_
    constructor
    · exact fun _ _ _ _ _ _ => trivial
    · exact fun _ _ _ _ _ _ _ _ => trivial
    · exact fun _ _ _ _ _ _ _ _ => trivial
    · exact fun _ _ _ _ _ _ => trivial
    · intro outs k hb _ _
      rw [(hblocks.unique hb).1, taken_sys]
    · exact fun _ _ _ _ _ _ _ => hfailed _
    · exact fun _ _ _ _ _ _ _ _ _ _ => hfailed _
    · exact fun _ _ _ _ _ _ _ _ _ _ _ => hfailed _
  case isFalse hflag =>
    rw [if_neg hflag] at hrx
    change Ensures _ _ (isrReceiveFileUncompressedLoop fd _ _ (checksumOf [])) _ u
    refine ensures_isrReceiveFileUncompressedLoop permits_anything _ (Nat.le_refl _) ?_
    constructor
    · exact fun _ _ _ _ _ _ _ _ _ _ => trivial
    · intro _ _
      rw [taken_sys, hrx, plainStream, List.append_assoc, List.take_left]
    · exact fun _ _ _ _ _ _ _ => hfailed _

/-! ## Senders -/

/-- The wire after a file has been announced and streamed. -/
theorem lengthAnnounced_iff {L : Lz4} {flags : UInt8} {blockSize : Nat} {sc : Script}
    {announce : Nat → List UInt8} (hL : BlocksRoundTrip L blockSize) (hsize : sc.size < word64)
    (hinj : ∀ {n m a b}, n < word64 → m < word64 → announce n ++ a = announce m ++ b →
      n = m ∧ a = b)
    (hquiet : ¬ Noticed L flags blockSize (chunksRead (readLength flags blockSize) sc.reads)
      (endsInError (readLength flags blockSize) sc.reads)) :
    LengthAnnounced L flags blockSize announce
        (chunksRead (readLength flags blockSize) sc.reads).flatten
        (announce sc.size ++ dataStream L flags blockSize
          (chunksRead (readLength flags blockSize) sc.reads)) ↔
      (chunksRead (readLength flags blockSize) sc.reads).flatten.length = sc.size := by
  have hcompress : hasFlag flags isrFlagUseCompression →
      Compress L blockSize (chunksRead (readLength flags blockSize) sc.reads) := by
    intro hflag
    unfold Noticed at hquiet
    rw [if_pos hflag, not_not] at hquiet
    exact hquiet
  have hcarries := carries_dataStream hL chunksRead_mem hcompress
  constructor
  · rintro ⟨n, stream, data, hn, htx, hdata, hlen, -⟩
    obtain ⟨rfl, rfl⟩ := hinj hsize hn htx
    rw [hcarries.unique hdata, hlen]
  · intro hlen
    refine ⟨sc.size, _, _, hsize, rfl, hcarries, hlen, ?_⟩
    have hword : (chunksRead (readLength flags blockSize) sc.reads).flatten.length < word64 := by
      rw [hlen]
      exact hsize
    have haccepted := acceptedAsWhole hL chunksRead_mem hcompress hword
    rwa [hlen] at haccepted

theorem toBe_injective {n m : Nat} (hn : n < word64) (hm : m < word64)
    (h : toBe 8 n = toBe 8 m) : n = m := by
  rw [← ofBe_toBe_of_lt (show n < 256 ^ 8 from hn), h, ofBe_toBe_of_lt (show m < 256 ^ 8 from hm)]

/-- A SEND command says which length it announces. -/
theorem sendCommandBytes_injective {path a b : List UInt8} {flags : UInt8} {blockSize n m : Nat}
    (hn : n < word64) (hm : m < word64)
    (h : sendCommandBytes path flags blockSize n ++ a =
      sendCommandBytes path flags blockSize m ++ b) : n = m ∧ a = b := by
  unfold sendCommandBytes IsrSendCommandHeader.bytes at h
  simp only [List.cons_append, List.append_assoc, List.cons.injEq, true_and,
    List.append_cancel_left_eq] at h
  obtain ⟨hlen, hrest⟩ := List.append_inj h (by simp)
  exact ⟨toBe_injective hn hm hlen, List.append_cancel_left hrest⟩

theorem confirmation_injective {tx a b : List UInt8} {t : UInt8} {n m : Nat}
    (hn : n < word64) (hm : m < word64)
    (h : tx ++ confirmation t n ++ a = tx ++ confirmation t m ++ b) : n = m ∧ a = b := by
  unfold confirmation IsrRecvConfirmation.bytes at h
  simp only [List.cons_append, List.append_assoc, List.cons.injEq, true_and,
    List.append_cancel_left_eq] at h
  obtain ⟨hlen, hrest⟩ := List.append_inj h (by simp)
  exact ⟨toBe_injective hn hm hlen, hrest⟩

/-! ## Uploads

The announcement is in the command, and a server that accepts it and is content with what
comes lets the client go through to the end.
-/

section Upload

variable {L : Lz4} {flags : UInt8} {blockSize : Nat} {sc : Script} {l : Loc} {i : Nat}

theorem session_undisturbed {s : Sys} {fd : Fd} {remotePath : List UInt8}
    (hs : s.script = some sc)
    (hquiet : ¬ Noticed L flags blockSize (chunksRead (readLength flags blockSize) sc.reads)
      (endsInError (readLength flags blockSize) sc.reads))
    (hcode : toInt64 (checksumOf
      (chunksRead (readLength flags blockSize) sc.reads).flatten) ≠ -1) :
    Terminates (machine Faults.none false true)
      (sendFileSession L ((chunksRead (readLength flags blockSize) sc.reads).length + 1) fd
        remotePath flags blockSize sc.size)
      (fun r v => r = 0 ∧ v.tx = sendCommandBytes remotePath flags blockSize sc.size ++
        dataStream L flags blockSize (chunksRead (readLength flags blockSize) sc.reads))
      (Proc.start s (acceptance false ++ (sendResponse isrResultOk none).bytes)) := by
  have hP := permits_answered Faults.none false true
  have hrecv := permitsRecv_answered Faults.none false true
  have hreply : (acceptance false).length = sizeofResponse := length_sendResponse _ _
  have hresult : (sendResponse isrResultOk none).bytes.length = sizeofResponse :=
    length_sendResponse _ _
  refine ensures_sendFileSession hP ?_
  have hrest : (repliedWorld s (acceptance false ++ (sendResponse isrResultOk none).bytes)
      (sendCommandBytes remotePath flags blockSize sc.size)).rx =
        (sendResponse isrResultOk none).bytes := by
    rw [repliedWorld, Proc.received_rx, asked_rx, ← hreply, List.drop_left]
  constructor
  · exact fun h => absurd h (by decide)
  · intro k hk hkr
    refine hrecv _ _ _ (by omega) (List.ne_nil_of_length_pos ?_)
    rw [Proc.received_rx, List.length_drop, asked_rx, List.length_append, hreply]
    omega
  · rintro k v hk hkr (h | ⟨-, h⟩)
    · exact absurd h (by decide)
    · rw [List.length_append, hreply] at h
      omega
  · intro _ h
    exact absurd h (by decide)
  · intro _ _
    refine ensures_transmitFile_script hP rfl hs ?_ ?_ ?_
    · intro hfuel
      omega
    · -- the data has been sent, and the result comes
      intro _ s' _
      refine ⟨fun h => absurd h hcode, fun _ => ?_⟩
      constructor
      · intro k hk hkr
        refine hrecv _ _ _ (by omega) (List.ne_nil_of_length_pos ?_)
        rw [Proc.received_rx, List.length_drop, Proc.sent_rx, Proc.withSys_rx, hrest, hresult]
        omega
      · rintro k v hk hkr (h | ⟨-, h⟩)
        · exact absurd h (by decide)
        · rw [Proc.sent_rx, Proc.withSys_rx, hrest, hresult] at h
          omega
      · exact fun _ _ => ⟨rfl, rfl⟩
      · intro _ h
        rw [Proc.sent_rx, Proc.withSys_rx, hrest] at h
        exact absurd rfl h
    · rintro (h | h | h)
      · exact absurd h (by decide)
      · exact absurd h (by decide)
      · exact absurd h hquiet

variable {remotePath localFile : List UInt8} (hs : w.sys.script = some sc)
  (hl : w.sys.resolve localFile = some l) (hi : w.sys.fs.node l = some (.file i))
include hs hl hi

/-- What an upload ensures it ensures for the session in it, whatever the server sends. -/
theorem ensures_session_of_upload {fuel : Nat} {Q : Int → World → Prop}
    (h : Ensures (machine F true true) Anything
      (isrCliSendFile L fuel remotePath localFile flags blockSize) Q w) (input : List UInt8) :
    Ensures (machine F true true) Anything
      (sendFileSession L fuel ⟨some i, w.sys.nextFd⟩ remotePath flags blockSize sc.size) Q
      (Proc.start (w.sys.newFd (some i)).2 input) := by
  rw [isrCliSendFile, ensures_bind, ensures_stat] at h
  have h := h.2 _ ((statStep_script hs hl hi).mpr rfl)
  simp only at h
  rw [ensures_bind, ensures_openRead, Sys.openRead_file hl hi] at h
  have h := h.2.1
  simp only [Sys.newFd, ensures_bind, ensures_netConnect] at h
  have h := h.2.1 input
  simp only [Bool.true_eq_false, if_false, ensures_bind, ensures_close, ensures_netClose,
    ensures_pure] at h
  exact h.mono fun _ _ hQ => hQ.2.2

/-- An upload that nothing disturbs. -/
theorem upload_undisturbed
    (hquiet : ¬ Noticed L flags blockSize (chunksRead (readLength flags blockSize) sc.reads)
      (endsInError (readLength flags blockSize) sc.reads))
    (hcode : toInt64 (checksumOf
      (chunksRead (readLength flags blockSize) sc.reads).flatten) ≠ -1) :
    ∃ fuel v, Reaches (machine F true true)
        (isrCliSendFile L fuel remotePath localFile flags blockSize) w (.ret 0) v ∧
      v.tx = sendCommandBytes remotePath flags blockSize sc.size ++
        dataStream L flags blockSize (chunksRead (readLength flags blockSize) sc.reads) := by
  by_contra hno
  have hens : Ensures (machine F true true) Anything
      (isrCliSendFile L ((chunksRead (readLength flags blockSize) sc.reads).length + 1)
        remotePath localFile flags blockSize)
      (fun r v => ¬ (r = 0 ∧ v.tx = sendCommandBytes remotePath flags blockSize sc.size ++
        dataStream L flags blockSize (chunksRead (readLength flags blockSize) sc.reads))) w := by
    refine ensures_iff_reaches.mpr fun q t hrun => ?_
    cases q with
    | ret r =>
      rintro ⟨rfl, htx⟩
      exact hno ⟨_, t, hrun, htx⟩
    | call op k => trivial
  obtain ⟨r, v, hrun, hrv⟩ := (@session_undisturbed L flags blockSize sc
    (w.sys.newFd (some i)).2 ⟨some i, w.sys.nextFd⟩ remotePath hs hquiet hcode).exists_ret
  exact (ensures_session_of_upload hs hl hi hens _).of_reaches
    (hrun.of_env fun _ _ _ _ _ => machine_of_none) hrv

/-- An upload whose announcement is kept, and any upload that fails. -/
theorem ensures_upload_announced (hF : F.reads = false) (hsize : sc.size < word64)
    (hL : BlocksRoundTrip L blockSize) (hkept : LengthKept L flags blockSize sc (· = -1))
    {fuel : Nat} :
    Ensures (machine F true true) Anything
      (isrCliSendFile L fuel remotePath localFile flags blockSize)
      (fun r v => r = -1 ∨ LengthAnnounced L flags blockSize
        (sendCommandBytes remotePath flags blockSize)
        (chunksRead (readLength flags blockSize) sc.reads).flatten v.tx) w := by
  have hopen := Sys.openRead_file hl hi
  refine ensures_isrCliSendFile permits_anything ?_
  constructor
  · exact trivial
  · exact fun _ _ _ => Or.inl rfl
  · exact trivial
  · exact fun _ _ _ => Or.inl rfl
  · exact fun _ => trivial
  · exact fun _ _ _ _ _ _ => Or.inl rfl
  · intro isDir size fd s input hstat hfd
    obtain ⟨rfl, rfl⟩ : isDir = false ∧ size = sc.size := by
      simpa using (statStep_script hs hl hi).mp hstat
    have hscript : s.script = some sc := by
      rw [hopen] at hfd
      rw [show s = (w.sys.newFd (some i)).2 from (congrArg Prod.snd hfd).symm]
      exact hs
    constructor
    · exact fun _ _ _ _ => Or.inl rfl
    · exact fun _ _ _ => trivial
    · exact fun _ _ _ _ _ _ => Or.inl rfl
    · exact fun _ _ _ _ => Or.inl rfl
    · intro _ _
      refine ensures_transmitFile_script permits_anything hF hscript (fun _ _ => trivial) ?_ ?_
      · intro hquiet s' _
        refine ⟨fun _ _ _ => Or.inl rfl, fun hc => ?_⟩
        constructor
        · exact fun _ _ _ => trivial
        · exact fun _ _ _ _ _ _ => Or.inl rfl
        · intro _ _
          have hsum := (hkept.resolve_left hquiet).resolve_right hc
          exact Or.inr ((lengthAnnounced_iff hL hsize
            (fun hn hm h => sendCommandBytes_injective hn hm h) hquiet).mpr hsum)
        · exact fun _ _ _ _ => Or.inl rfl
      · intro _ s' data _
        exact ⟨fun _ _ _ => Or.inl rfl, fun h => absurd rfl h⟩

/-- Uploads, whatever the server answers. -/
theorem upload_lengthAnnounced_iff (hF : F.reads = false) (hsize : sc.size < word64)
    (hL : BlocksRoundTrip L blockSize) :
    (∀ fuel r v, Reaches (machine F true true)
        (isrCliSendFile L fuel remotePath localFile flags blockSize) w (.ret r) v →
      r = -1 ∨ LengthAnnounced L flags blockSize (sendCommandBytes remotePath flags blockSize)
        (chunksRead (readLength flags blockSize) sc.reads).flatten v.tx) ↔
    LengthKept L flags blockSize sc (· = -1) := by
  constructor
  · intro hall
    by_cases hquiet : Noticed L flags blockSize (chunksRead (readLength flags blockSize) sc.reads)
        (endsInError (readLength flags blockSize) sc.reads)
    · exact Or.inl hquiet
    by_cases hcode : toInt64 (checksumOf
        (chunksRead (readLength flags blockSize) sc.reads).flatten) = -1
    · exact Or.inr (Or.inr hcode)
    obtain ⟨fuel, v, hrun, htx⟩ :=
      @upload_undisturbed F w L flags blockSize sc l i remotePath localFile hs hl hi hquiet hcode
    have hannounced := (hall fuel 0 v hrun).resolve_left (by decide)
    rw [htx] at hannounced
    exact Or.inr (Or.inl ((lengthAnnounced_iff hL hsize
      (fun hn hm h => sendCommandBytes_injective hn hm h) hquiet).mp hannounced))
  · intro hkept fuel r v hrun
    exact (ensures_upload_announced hs hl hi hF hsize hL hkept).of_reaches hrun

end Upload

/-! ## Downloads

The announcement is in the confirmation.  The client has asked for the data, and it does not
matter what it does afterwards.
-/

section Download

variable {L : Lz4} {sc : Script} {l : Loc} {i : Nat} {header : IsrRecvCommandHeader}
  {root path full : List UInt8} {go : UInt8} {rest : List UInt8}
  (hs : w.sys.script = some sc)
  (hfull : resolvedPath w.sys root path isrPathMax = some full)
  (hl : w.sys.resolve full = some l) (hi : w.sys.fs.node l = some (.file i))
  (hrx : w.rx = go :: rest) (hgo : go ≠ isrRecvUnable)
include hs hfull hl hi hrx hgo

/-- A download that nothing disturbs. -/
theorem download_undisturbed (hvalid : isrValidatePath path ≠ -1)
    (hquiet : ¬ Noticed L header.flags header.uncompressedBlockSize
      (chunksRead (readLength header.flags header.uncompressedBlockSize) sc.reads)
      (endsInError (readLength header.flags header.uncompressedBlockSize) sc.reads))
    (hcode : ¬ toInt64 (checksumOf
      (chunksRead (readLength header.flags header.uncompressedBlockSize) sc.reads).flatten) < 0) :
    Terminates (machine Faults.none false true)
      (isrReceiveRecvCommand L ((chunksRead
        (readLength header.flags header.uncompressedBlockSize) sc.reads).length + 1)
        root header path)
      (fun r v => r = 0 ∧ v.tx = w.tx ++ confirmation isrRecvTypeFile sc.size ++
        dataStream L header.flags header.uncompressedBlockSize
          (chunksRead (readLength header.flags header.uncompressedBlockSize) sc.reads)) w := by
  have hP := permits_answered Faults.none false true
  have hopen := Sys.openRead_file hl hi
  have hstat : ∀ {r}, w.sys.StatStep full r → r = some (false, sc.size) :=
    fun h => (statStep_script hs hl hi).mp h
  refine ensures_isrReceiveRecvCommand hP (fun _ _ => answered_sys ⟨_, _, rfl, rfl⟩) ?_
    (fun _ full _ => answered_stat full) ?_ ?_ ?_
  · rintro (h | h)
    · exact absurd h hvalid
    · exact absurd (hfull.symm.trans h) (by simp)
  · intro _ full' hfull' h
    obtain rfl := Option.some.inj (hfull.symm.trans hfull')
    exact absurd (hstat h) (by simp)
  · intro _ full' size hfull' h
    obtain rfl := Option.some.inj (hfull.symm.trans hfull')
    exact absurd (hstat h) (by simp)
  · intro _ full' size hfull' h
    obtain rfl := Option.some.inj (hfull.symm.trans hfull')
    obtain rfl : size = sc.size := by simpa using hstat h
    constructor
    · exact fun _ h => absurd h (by decide)
    · exact answered_recv (by decide) (Or.inl (by simp [hrx]))
    · rintro (h | ⟨-, h⟩)
      · exact absurd h (by decide)
      · exact absurd (hrx.symm.trans h) (by simp)
    · intro rest' h
      exact absurd (List.cons.inj (hrx.symm.trans h)).1 hgo
    · exact fun _ _ _ _ => answered_openRead _
    · rintro go' rest' - - (h | h)
      · rw [hopen] at h
        exact absurd h (by simp [Sys.newFd])
      · exact absurd h (by decide)
    · intro go' rest' fd s _ _ hfd
      have hscript : s.script = some sc := by
        rw [hopen] at hfd
        rw [show s = (w.sys.newFd (some i)).2 from (congrArg Prod.snd hfd).symm]
        exact hs
      refine ensures_transmitFile_script hP rfl hscript ?_ ?_ ?_
      · intro hfuel
        omega
      · intro _ s' _
        exact ⟨if_pos (by omega), rfl⟩
      · rintro (h | h | h)
        · exact absurd h (by decide)
        · exact absurd h (by decide)
        · exact absurd h hquiet

/-- A download whose announcement is kept, and any download that fails. -/
theorem ensures_download_announced (hF : F.reads = false) (hsize : sc.size < word64)
    (hL : BlocksRoundTrip L header.uncompressedBlockSize)
    (hkept : LengthKept L header.flags header.uncompressedBlockSize sc (· < 0)) {fuel : Nat} :
    Ensures (machine F true true) Anything (isrReceiveRecvCommand L fuel root header path)
      (fun r v => r = -1 ∨ LengthAnnounced L header.flags header.uncompressedBlockSize
        (fun n => w.tx ++ confirmation isrRecvTypeFile n)
        (chunksRead (readLength header.flags header.uncompressedBlockSize) sc.reads).flatten
          v.tx) w := by
  have hopen := Sys.openRead_file hl hi
  have hstat : ∀ {r}, w.sys.StatStep full r → r = some (false, sc.size) :=
    fun h => (statStep_script hs hl hi).mp h
  refine ensures_isrReceiveRecvCommand permits_anything (fun _ _ => trivial)
    (fun _ _ _ => Or.inl rfl) (fun _ _ _ => trivial) ?_ ?_ ?_
  · intro _ full' hfull' h
    obtain rfl := Option.some.inj (hfull.symm.trans hfull')
    exact absurd (hstat h) (by simp)
  · intro _ full' size hfull' h
    obtain rfl := Option.some.inj (hfull.symm.trans hfull')
    exact absurd (hstat h) (by simp)
  · intro _ full' size hfull' h
    obtain rfl := Option.some.inj (hfull.symm.trans hfull')
    obtain rfl : size = sc.size := by simpa using hstat h
    constructor
    · exact fun _ _ _ => Or.inl rfl
    · exact trivial
    · exact fun _ => Or.inl rfl
    · intro rest' h
      exact absurd (List.cons.inj (hrx.symm.trans h)).1 hgo
    · exact fun _ _ _ _ => trivial
    · exact fun _ _ _ _ _ => Or.inl rfl
    · intro go' rest' fd s _ _ hfd
      have hscript : s.script = some sc := by
        rw [hopen] at hfd
        rw [show s = (w.sys.newFd (some i)).2 from (congrArg Prod.snd hfd).symm]
        exact hs
      refine ensures_transmitFile_script permits_anything hF hscript (fun _ _ => trivial) ?_ ?_
      · intro hquiet s' _
        by_cases hcode : toInt64 (checksumOf (chunksRead
            (readLength header.flags header.uncompressedBlockSize) sc.reads).flatten) < 0
        · exact Or.inl (if_neg (by omega))
        · have hsum := (hkept.resolve_left hquiet).resolve_right hcode
          exact Or.inr ((lengthAnnounced_iff hL hsize
            (fun hn hm h => confirmation_injective hn hm h) hquiet).mpr hsum)
      · exact fun _ s' data _ => Or.inl (if_neg (by decide))

/-- Downloads, whatever the client does after it has asked for the data. -/
theorem download_lengthAnnounced_iff (hvalid : isrValidatePath path ≠ -1)
    (hF : F.reads = false) (hsize : sc.size < word64)
    (hL : BlocksRoundTrip L header.uncompressedBlockSize) :
    (∀ fuel r v, Reaches (machine F true true) (isrReceiveRecvCommand L fuel root header path) w
        (.ret r) v →
      r = -1 ∨ LengthAnnounced L header.flags header.uncompressedBlockSize
        (fun n => w.tx ++ confirmation isrRecvTypeFile n)
        (chunksRead (readLength header.flags header.uncompressedBlockSize) sc.reads).flatten
          v.tx) ↔
    LengthKept L header.flags header.uncompressedBlockSize sc (· < 0) := by
  constructor
  · intro hall
    by_cases hquiet : Noticed L header.flags header.uncompressedBlockSize
        (chunksRead (readLength header.flags header.uncompressedBlockSize) sc.reads)
        (endsInError (readLength header.flags header.uncompressedBlockSize) sc.reads)
    · exact Or.inl hquiet
    by_cases hcode : toInt64 (checksumOf
        (chunksRead (readLength header.flags header.uncompressedBlockSize) sc.reads).flatten) < 0
    · exact Or.inr (Or.inr hcode)
    obtain ⟨r, v, hrun, rfl, htx⟩ :=
      (download_undisturbed hs hfull hl hi hrx hgo hvalid hquiet hcode).exists_ret
    have hannounced := hall _ _ _ (hrun.of_env fun _ _ _ _ _ => machine_of_none)
    rw [htx] at hannounced
    exact Or.inr (Or.inl ((lengthAnnounced_iff hL hsize
      (fun hn hm h => confirmation_injective hn hm h) hquiet).mp
        (hannounced.resolve_left (by decide))))
  · intro hkept fuel r v hrun
    exact (ensures_download_announced hs hfull hl hi hrx hgo hF hsize hL hkept).of_reaches hrun

end Download

/-- **The length that is announced is the length that is streamed exactly if the reads
add up to it**, or the sender fails.  This holds of the two senders, for every history of
the file between `stat` and the last read, and for every peer and every network. -/
theorem announcedLength_iff (L : Lz4) (flags : UInt8) (blockSize pathLength : Nat) (sc : Script)
    (remotePath localFile root path : List UInt8) {w u : World} {full : List UInt8} {l k : Loc}
    {i j : Nat} {go : UInt8} {rest : List UInt8} (hF : F.reads = false) (hsize : sc.size < word64)
    (hL : BlocksRoundTrip L blockSize) (hs : w.sys.script = some sc)
    (hl : w.sys.resolve localFile = some l) (hi : w.sys.fs.node l = some (.file i))
    (hs' : u.sys.script = some sc) (hvalid : isrValidatePath path ≠ -1)
    (hfull : resolvedPath u.sys root path isrPathMax = some full)
    (hk : u.sys.resolve full = some k) (hj : u.sys.fs.node k = some (.file j))
    (hrx : u.rx = go :: rest) (hgo : go ≠ isrRecvUnable) :
    ((∀ fuel r v, Reaches (machine F true true)
        (isrCliSendFile L fuel remotePath localFile flags blockSize) w (.ret r) v →
      r = -1 ∨ LengthAnnounced L flags blockSize (sendCommandBytes remotePath flags blockSize)
        (chunksRead (readLength flags blockSize) sc.reads).flatten v.tx) ↔
      LengthKept L flags blockSize sc (· = -1)) ∧
    ((∀ fuel r v, Reaches (machine F true true)
        (isrReceiveRecvCommand L fuel root ⟨flags, pathLength, blockSize⟩ path) u (.ret r) v →
      r = -1 ∨ LengthAnnounced L flags blockSize
        (fun n => u.tx ++ confirmation isrRecvTypeFile n)
        (chunksRead (readLength flags blockSize) sc.reads).flatten v.tx) ↔
      LengthKept L flags blockSize sc (· < 0)) :=
  ⟨upload_lengthAnnounced_iff hs hl hi hF hsize hL,
    download_lengthAnnounced_iff hs' hfull hk hj hrx hgo hvalid hF hsize hL⟩

/-- Three bytes are reported, and three are read. -/
theorem announcedLength_iff_threeBytes :
    (∀ fuel r v, Reaches (machine Faults.none true true)
        (isrCliSendFile shortLz4 fuel [0x66] [slash, 0x66] isrFlagUseCompression 8)
        (Proc.start (changing ⟨3, [some [1, 2, 3]]⟩) []) (.ret r) v →
      r = -1 ∨ LengthAnnounced shortLz4 isrFlagUseCompression 8
        (sendCommandBytes [0x66] isrFlagUseCompression 8) [1, 2, 3] v.tx) ∧
    (∀ fuel r v, Reaches (machine Faults.none true true)
        (isrReceiveRecvCommand shortLz4 fuel [slash] ⟨isrFlagUseCompression, 1, 8⟩ [0x66])
        (Proc.start (changing ⟨3, [some [1, 2, 3]]⟩) [isrRecvGo]) (.ret r) v →
      r = -1 ∨ LengthAnnounced shortLz4 isrFlagUseCompression 8
        (fun n => [] ++ confirmation isrRecvTypeFile n) [1, 2, 3] v.tx) := by
  have hlz4 : BlocksRoundTrip shortLz4 8 := fun _ => shortLz4_roundTrip (by decide)
  have hiff := announcedLength_iff (F := Faults.none) shortLz4 isrFlagUseCompression 8 1
    ⟨3, [some [1, 2, 3]]⟩ [0x66] [slash, 0x66] [slash] [0x66]
    (w := Proc.start (changing ⟨3, [some [1, 2, 3]]⟩) [])
    (u := Proc.start (changing ⟨3, [some [1, 2, 3]]⟩) [isrRecvGo])
    rfl (by decide) hlz4 rfl rfl rfl rfl (by decide) rfl rfl rfl rfl (by decide)
  exact ⟨hiff.1.mpr (Or.inr (Or.inl rfl)), hiff.2.mpr (Or.inr (Or.inl rfl))⟩

/-- **A file that grows.**  Nothing is announced and eight bytes are streamed; the server
takes them for the checksum of an empty file and accepts, and both sides report
success. -/
theorem announcedLength_grown : ∃ tx : List UInt8,
    (∃ v, Reaches (machine Faults.none true true)
      (isrCliSendFile shortLz4 2 [0x66] [slash, 0x66] 0 1)
      (Proc.start (changing ⟨0, [some (List.replicate 8 0)]⟩) []) (.ret 0) v ∧ v.tx = tx) ∧
    (∃ v, Reaches (machine Faults.none true true) (serveConnection shortLz4 2 [slash])
      (Proc.start (.initial .empty) tx) (.ret 0) v ∧ v.sys.fs.contents [[0x66]] = some []) ∧
    (sendHeader tx).effectiveLength = 0 ∧
    Carries shortLz4 0 1 (tx.drop 17) (List.replicate 8 0) := by
  refine ⟨sendCommandBytes [0x66] 0 1 0 ++ plainStream (List.replicate 8 0), ?_, ?_, by decide, ?_⟩
  · have hrun := reaches_execute (F := Faults.none) (b := true)
      (i := acceptance false ++ (sendResponse isrResultOk none).bytes)
      (p := isrCliSendFile shortLz4 2 [0x66] [slash, 0x66] 0 1)
      (w := Proc.start (changing ⟨0, [some (List.replicate 8 0)]⟩) [])
      (g := fun av => (av.1, av.2.tx))
      (y := (0, sendCommandBytes [0x66] 0 1 0 ++ plainStream (List.replicate 8 0)))
      (by decide +kernel)
    obtain ⟨r, v, hreach, heq⟩ := hrun
    obtain ⟨rfl, htx⟩ := Prod.mk.inj heq
    exact ⟨v, hreach, htx⟩
  · have hrun := reaches_execute (F := Faults.none) (b := true) (i := [])
      (p := serveConnection shortLz4 2 [slash])
      (w := Proc.start (.initial .empty) (sendCommandBytes [0x66] 0 1 0 ++
        plainStream (List.replicate 8 0))) (g := fun av => (av.1, av.2.sys.fs.contents [[0x66]]))
      (y := (0, some [])) (by decide +kernel)
    obtain ⟨r, v, hreach, heq⟩ := hrun
    obtain ⟨rfl, hfile⟩ := Prod.mk.inj heq
    exact ⟨v, hreach, hfile⟩
  · exact ⟨_, _, (List.take_append_drop 8 _).symm, by decide, rfl⟩

end IsrTransfer
