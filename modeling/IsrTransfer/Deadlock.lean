import IsrTransfer.ClientRules
import IsrTransfer.Effect.Duplex
import IsrTransfer.Scripted

/-!
# No deadlock in a session

The server counts down from the announced length, the client streams until the end of
the file, and then each waits for the other's last message.  If the stream ends before
the count does, both wait for ever.

## What a side knows when it waits

For each side it is said what it can have received and sent when it waits
(`UploadWaits`, `DownloadWaits`, `ServerWaits`).  A client that has sent a whole
command never waits for a server that waits for the rest of it, and so on through the
session; what is left is the case in which the server's data is `Incomplete` although
the client has streamed it all, and that is what the condition on the file excludes
(`Suffices`).  Downloads need no condition, because the server closes the connection at
the end.

That a side waits is a property of the operation that it comes to, and so these are guards in the
rules for the two programs (`upload_stuck`, `server_stuck`): in front of every receive that finds
nothing more, what has been received and sent is as it is said.  In a session each side has had a
run of its own with the bytes of the other (`Duplex.localRuns`).  If both wait, what is known of
the one and what is known of the other are statements about the same bytes, in both directions,
and they exclude each other (`upload_apart`, `download_apart`).  The order of the steps does not
come into it.

## Streams that are long enough

Without compression a receiver is content with as many bytes as were announced, and whatever is
streamed beyond them it does not read.  With compression it goes by blocks: they have to meet the
announced length at some point.  If they pass it or stay below it, the receiver takes the
checksum for the head of a block, and whether it then waits depends on what these eight bytes say
(`not_incomplete_frames`).
-/

namespace IsrTransfer

open Effect Effect.Duplex Posix

variable {F : Faults} {lossy eof : Bool} {w : World}

theorem permits_stuck (C : List UInt8 → List UInt8 → Prop) :
    Permits (Stuck C : Guard (NetOp OsOp) World) :=
  ⟨fun _ _ _ h => h.elim, fun _ h => h.elim, fun _ _ _ h => h.elim, fun _ _ _ _ h => h.elim,
    fun _ _ h => h.elim, fun _ _ h => h.elim, fun _ _ h => h.elim, fun _ _ h => h.elim⟩

/-- A process that waits has received everything. -/
theorem length_of_waiting {k room len : Nat} (hk : k ≤ w.rx.length)
    (h : @Proc.Waiting OsOp _ _ (w.received k) (.recv room len)) : w.rx.length = k := by
  have hnil : w.rx.drop k = [] := h
  rw [List.drop_eq_nil_iff] at hnil
  omega

/-! ## A receiver that waits -/

theorem ensures_receiveFile_stuck {L : Lz4} {fuel : Nat} {fd : Fd} {flags : UInt8}
    {blockSize n : Nat} {C : List UInt8 → List UInt8 → Prop} {Q : Int → World → Prop}
    (hC : Incomplete L flags blockSize n w.rx → C w.input w.tx)
    (hQ : ∀ r data k, Q r (taken w fd data k)) :
    Ensures (machine F lossy eof) (Stuck C) (receiveFile L fuel fd flags blockSize n) Q w :=
  ensures_receiveFile_outline (permits_stuck C) (fun _ _ _ _ _ hinc hnil => hC (hinc hnil))
    (fun _ _ h => h.elim) hQ

/-! ## A stream that is long enough -/

/-- The reads are enough for a receiver that has been told the length `n`, or the sender
fails.  Without compression enough is as many bytes as announced.  With compression the
chunks have to meet the length exactly at some point; or else the receiver takes the
checksum for the head of a block, and that block is no longer than four bytes and does
not decompress. -/
def Suffices (L : Lz4) (flags : UInt8) (blockSize n : Nat)
    (reads : List (Option (List UInt8))) : Prop :=
  let cs := chunksRead (readLength flags blockSize) reads
  Noticed L flags blockSize cs (endsInError (readLength flags blockSize) reads) ∨
    toInt64 (checksumOf cs.flatten) = -1 ∨
    if hasFlag flags isrFlagUseCompression then
      (∃ j, (cs.take j).flatten.length % word64 = n) ∨
        (blockLength (toBe 8 (checksumOf cs.flatten)) ≤ 4 ∧
          ∀ out, decompressed L blockSize (toBe 8 (checksumOf cs.flatten)) = some out → out = [])
    else n ≤ cs.flatten.length

/-- A receiver of blocks does not wait for more than the checksum `sum`. -/
theorem not_incomplete_frames {L : Lz4} {blockSize : Nat} (hL : BlocksRoundTrip L blockSize)
    {sum : List UInt8} (hsum : sum.length = 8)
    (cs : List (List UInt8)) : ∀ {n : Nat}, n < word64 →
    (blockSize ≤ lz4MaxInputSize ∨ cs = []) → (∀ c ∈ cs, c ≠ [] ∧ c.length ≤ blockSize) →
    ((∃ j, (cs.take j).flatten.length % word64 = n) ∨
      (blockLength sum ≤ 4 ∧ ∀ out, decompressed L blockSize sum = some out → out = [])) →
    ∀ {outs rem k}, Blocks L blockSize n (frames L blockSize cs ++ sum) outs rem k →
      (rem = 0 → k + 8 ≤ (frames L blockSize cs ++ sum).length) ∧
      (rem ≠ 0 → k + (4 + blockLength ((frames L blockSize cs ++ sum).drop k)) ≤
        (frames L blockSize cs ++ sum).length) := by
  induction cs with
  | nil =>
    intro n hn _ _ hcov outs rem k hb
    rw [frames_nil, List.nil_append] at hb ⊢
    have hend : n ≠ 0 → 4 + blockLength sum ≤ sum.length ∧
        ∀ out, decompressed L blockSize sum = some out → out = [] := by
      intro h0
      rcases hcov with ⟨j, hj⟩ | ⟨hle, hdec⟩
      · simp at hj
        omega
      · exact ⟨by omega, hdec⟩
    cases hb with
    | nil =>
      refine ⟨fun _ => by omega, fun h0 => ?_⟩
      have hle := (hend h0).1
      rw [List.drop_zero]
      omega
    | cons h0 _ hdec hne _ => exact absurd ((hend h0).2 _ hdec) hne
  | cons c cs ih =>
    intro n hn hmax hcs hcov outs rem k hb
    obtain ⟨hcne, hclen⟩ := hcs c List.mem_cons_self
    have hmax : blockSize ≤ lz4MaxInputSize := hmax.resolve_right (List.cons_ne_nil _ _)
    obtain ⟨hblock, hdec⟩ :=
      decompressed_frame (hL hmax) hmax (frames L blockSize cs ++ sum) hcne hclen
    rw [frames_cons, List.append_assoc] at hb ⊢
    have hlen : (frame L blockSize c ++ (frames L blockSize cs ++ sum)).length =
        (4 + (compressed L blockSize c).length) + ((frames L blockSize cs ++ sum).length) := by
      rw [List.length_append, length_frame]
    have h8 : 8 ≤ (frames L blockSize cs ++ sum).length := by
      rw [List.length_append]
      omega
    cases hb with
    | nil =>
      refine ⟨fun _ => by omega, fun _ => ?_⟩
      rw [List.drop_zero, hblock]
      omega
    | @cons _ _ k' _ out outs' h0 _ hdec' _ hrest =>
      obtain rfl := Option.some.inj (hdec.symm.trans hdec')
      rw [hblock, ← length_frame, List.drop_left] at hrest
      have hword : c.length < word64 := by
        unfold lz4MaxInputSize at hmax
        unfold word64
        omega
      have hcov' : (∃ j, (cs.take j).flatten.length % word64 = (n + word64 - c.length) % word64) ∨
          (blockLength sum ≤ 4 ∧ ∀ out, decompressed L blockSize sum = some out → out = []) := by
        refine hcov.imp_left ?_
        rintro ⟨j, hj⟩
        cases j with
        | zero =>
          rw [List.take_zero, List.flatten_nil, List.length_nil, Nat.zero_mod] at hj
          exact absurd hj.symm h0
        | succ j =>
          refine ⟨j, ?_⟩
          rw [List.take_succ_cons, List.flatten_cons, List.length_append] at hj
          unfold word64 at *
          omega
      have h := ih (Nat.mod_lt _ (by decide)) (Or.inl hmax)
        (fun d hd => hcs d (List.mem_cons_of_mem c hd)) hcov' hrest
      rw [hblock, ← List.drop_drop, ← length_frame, List.drop_left, hlen, length_frame]
      exact ⟨fun hr => by have := h.1 hr; omega, fun hr => by have := h.2 hr; omega⟩

theorem not_incomplete {L : Lz4} {flags : UInt8} {blockSize n : Nat}
    {reads : List (Option (List UInt8))} (hL : BlocksRoundTrip L blockSize) (hn : n < word64)
    (hquiet : ¬ Noticed L flags blockSize (chunksRead (readLength flags blockSize) reads)
      (endsInError (readLength flags blockSize) reads))
    (hcode : toInt64 (checksumOf (chunksRead (readLength flags blockSize) reads).flatten) ≠ -1)
    (h : Suffices L flags blockSize n reads) :
    ¬ Incomplete L flags blockSize n
      (dataStream L flags blockSize (chunksRead (readLength flags blockSize) reads)) := by
  have hcov := (h.resolve_left hquiet).resolve_left hcode
  unfold Incomplete dataStream
  have hmem := @chunksRead_mem (readLength flags blockSize) reads
  unfold readLength Noticed at *
  split
  case isTrue hflag =>
    simp only [hflag, if_true] at hcov hmem hquiet ⊢
    rintro ⟨outs, rem, k, hb, hinc⟩
    unfold compressedStream at hb hinc
    suffices hfit : (rem = 0 → _) ∧ (rem ≠ 0 → _) by
      rcases hinc with ⟨hr, hlt⟩ | ⟨hr, hlt⟩
      · exact absurd (hfit.1 hr) (Nat.not_le_of_lt hlt)
      · exact absurd (hfit.2 hr) (Nat.not_le_of_lt hlt)
    refine not_incomplete_frames hL (length_toBe _ _) _ hn ?_ hmem hcov hb
    by_cases hmax : blockSize ≤ lz4MaxInputSize
    · exact Or.inl hmax
    · exact Or.inr (compress_nil_of_large (by omega) (not_not.mp hquiet))
  case isFalse hflag =>
    simp only [hflag, if_false, Bool.false_eq_true] at hcov ⊢
    unfold plainStream
    rw [List.length_append, length_toBe]
    omega

/-! ## The client when it waits -/

/-- An upload that waits has sent the command, or the command and all of the stream. -/
def UploadWaits (L : Lz4) (remotePath localFile : List UInt8) (flags : UInt8) (blockSize : Nat)
    (s : Sys) (reads : List (Option (List UInt8))) (down up : List UInt8) : Prop :=
  ∃ isDir size, s.StatStep localFile (some (isDir, size)) ∧
    ((up = sendCommandBytes remotePath flags blockSize size ∧ down.length < sizeofResponse) ∨
      (up = sendCommandBytes remotePath flags blockSize size ++
          dataStream L flags blockSize (chunksRead (readLength flags blockSize) reads) ∧
        ¬ Noticed L flags blockSize (chunksRead (readLength flags blockSize) reads)
          (endsInError (readLength flags blockSize) reads) ∧
        toInt64 (checksumOf (chunksRead (readLength flags blockSize) reads).flatten) ≠ -1))

theorem upload_stuck {L : Lz4} {fuel : Nat} {remotePath localFile : List UInt8} {flags : UInt8}
    {blockSize : Nat} {s : Sys} {sc : Script} (hF : F.reads = false) (hs : s.script = some sc) :
    Ensures (machine F lossy eof)
      (Stuck (UploadWaits L remotePath localFile flags blockSize s sc.reads))
      (isrCliSendFile L fuel remotePath localFile flags blockSize) (fun _ _ => True)
      (Proc.start s []) := by
  refine ensures_isrCliSendFile (permits_stuck _) ?_
  constructor
  · exact fun h => h.elim
  · exact fun _ _ _ => trivial
  · exact fun h => h.elim
  · exact fun _ _ _ => trivial
  · exact fun _ h => h.elim
  · exact fun _ _ _ _ _ _ => trivial
  · intro isDir size fd s' input hstat hopen
    have hscript : s'.script = some sc := by
      rw [← hs, ← Sys.openRead_script s localFile]
      exact congrArg (fun r => r.2.script) hopen.symm
    constructor
    · exact fun _ _ _ _ => trivial
    · intro k hk hkr hnil
      have hall : input.length = k := length_of_waiting hkr hnil
      refine ⟨isDir, size, hstat, Or.inl ⟨rfl, ?_⟩⟩
      change input.length < sizeofResponse
      omega
    · exact fun _ _ _ _ _ _ => trivial
    · exact fun _ _ _ _ => trivial
    · intro _ _
      refine ensures_transmitFile_script (permits_stuck _) hF hscript (fun _ _ h => h.elim) ?_ ?_
      · intro hquiet s'' _
        refine ⟨fun _ _ _ => trivial, fun hcode => ?_⟩
        constructor
        · exact fun k _ _ _ => ⟨isDir, size, hstat, Or.inr ⟨rfl, hquiet, hcode⟩⟩
        · exact fun _ _ _ _ _ _ => trivial
        · exact fun _ _ => trivial
        · exact fun _ _ _ _ => trivial
      · exact fun _ _ _ _ => ⟨fun _ _ _ => trivial, fun h => absurd rfl h⟩

/-- A download that waits has sent the command, or has asked for the data too. -/
def DownloadWaits (command down up : List UInt8) : Prop :=
  (up = command ∧ down.length < sizeofRecvConfirmation) ∨ up = command ++ [isrRecvGo]

theorem connectCases_stuck {command : List UInt8} {Q : Option IsrRecvConfirmation → World → Prop}
    (hQ : ∀ conf v, Q conf v) :
    ConnectCases F lossy eof (Stuck (DownloadWaits command)) command Q w := by
  constructor
  · exact fun h => h.elim
  · exact fun _ _ _ => hQ _ _
  · exact fun _ _ _ _ _ => hQ _ _
  · intro input k hk hkr hnil
    have hall : input.length = k := length_of_waiting hkr hnil
    refine Or.inl ⟨rfl, ?_⟩
    change input.length < sizeofRecvConfirmation
    omega
  · exact fun _ _ _ _ _ _ _ => hQ _ _
  · exact fun _ _ => hQ _ _

theorem intoCases_stuck {L : Lz4} {fuel : Nat} {flags : UInt8} {blockSize n : Nat}
    {outPath input command : List UInt8} {s : Sys} :
    IntoCases F lossy eof (Stuck (DownloadWaits command)) L fuel flags blockSize n outPath
      (fun _ _ => True) ((confirmedWorld s input command).sent [isrRecvGo]) := by
  constructor
  · exact fun h => h.elim
  · exact fun _ _ _ => trivial
  · intro fd s' _
    exact ensures_receiveFile_stuck (fun _ => Or.inr rfl)
      fun _ _ _ => ⟨fun _ _ _ => trivial, fun _ => trivial⟩

theorem download_stuck {L : Lz4} {fuel : Nat} {remotePath localPath : List UInt8}
    {flags : UInt8} {blockSize : Nat} :
    Ensures (machine F lossy eof)
      (Stuck (DownloadWaits (recvCommandBytes remotePath flags blockSize)))
      (isrCliDownloadFile L fuel remotePath localPath flags blockSize) (fun _ _ => True) w := by
  refine ensures_isrCliDownloadFile (permits_stuck _) ?_
  constructor
  · exact connectCases_stuck fun _ _ _ => trivial
  · exact fun _ _ _ _ _ => trivial
  · exact fun _ _ _ _ _ _ => trivial
  · exact fun _ _ _ _ _ _ _ _ _ h => h.elim
  · exact fun _ _ _ _ _ => intoCases_stuck

theorem recv_stuck {L : Lz4} {fuel : Nat} {remotePath localDir : List UInt8}
    {flags : UInt8} {blockSize : Nat} :
    Ensures (machine F lossy eof)
      (Stuck (DownloadWaits (recvCommandBytes remotePath flags blockSize)))
      (isrCliRecv L fuel remotePath localDir flags blockSize) (fun _ _ => True) w := by
  refine ensures_isrCliRecv (permits_stuck _) ?_
  constructor
  · exact connectCases_stuck fun _ _ _ => trivial
  · exact fun _ _ _ _ _ _ => trivial
  · exact fun _ _ _ _ _ => trivial
  · intro input _ _
    exact ensures_isrReceiveDirectoryListing (permits_stuck _) (fun _ _ _ _ _ _ _ _ => Or.inr rfl)
      (fun _ _ _ _ => trivial) (fun _ _ => trivial) (fun _ _ _ _ => trivial)
  · exact fun _ _ _ _ _ _ _ _ _ h => h.elim
  · exact fun _ _ _ _ _ => intoCases_stuck

/-! ## The server when it waits -/

/-- A server that waits is in the middle of a command, or has accepted a file of which
some data is missing, or has offered something. -/
inductive ServerWaits (L : Lz4) (root : List UInt8) (s : Sys) (up down : List UInt8) : Prop where
  | command : up.length < commandLength up → ServerWaits L root s up down
  | data : up.head? = some isrCommandSend → 16 + (sendHeader up).pathLength ≤ up.length →
      Accepts s root (sendHeader up).flags (cstr (sendPath up)) →
      sizeofResponse ≤ down.length →
      Incomplete L (sendHeader up).flags (sendHeader up).uncompressedBlockSize
        (sendHeader up).effectiveLength (up.drop (16 + (sendHeader up).pathLength)) →
      ServerWaits L root s up down
  | offer : up.head? = some isrCommandRecv → up.length = 8 + (recvHeader up).pathLength →
      sizeofRecvConfirmation ≤ down.length → ServerWaits L root s up down

theorem server_stuck {L : Lz4} {fuel : Nat} {root up : List UInt8} {s : Sys} :
    Ensures (machine F lossy eof) (Stuck (ServerWaits L root s)) (serveConnection L fuel root)
      (fun _ _ => True) (Proc.start s up) := by
  have hP := permits_stuck (ServerWaits L root s)
  refine ensures_serveConnection hP (ensures_isrReceiveCommand hP ?_)
  constructor
  · intro k room len hk h0 _ hsum hnil
    have hall : up.length = k := length_of_waiting hk hnil
    refine .command ?_
    change up.length < commandLength up
    rw [Proc.start_rx] at hsum
    omega
  · exact fun _ _ _ _ => trivial
  · exact fun _ _ _ _ => trivial
  · exact fun _ _ _ _ _ _ => trivial
  · intro hhead _ hlen
    refine ensures_isrReceiveSendCommand hP (fun _ _ h => h.elim) (fun _ _ _ => trivial)
      (fun _ _ _ _ => trivial) fun hvalid full hfull => ?_
    have haccept : ∀ present, Accepts s root (sendHeader up).flags (cstr (sendPath up)) →
        AcceptCases F lossy eof (Stuck (ServerWaits L root s)) L fuel (sendHeader up) full present
          (fun _ _ => True) ((Proc.start s up).received (16 + (sendHeader up).pathLength)) := by
      intro present hacc
      constructor
      · exact fun _ _ _ _ _ _ h => h.elim
      · exact fun _ _ h => h.elim
      · exact fun _ _ _ _ _ => trivial
      · exact fun _ _ _ => trivial
      · intro s₁ fd s₂ _ _
        refine ensures_receiveFile_stuck (fun hinc => .data hhead hlen hacc ?_ hinc)
          fun _ _ _ _ _ => trivial
        exact Nat.le_of_eq (length_sendResponse _ _).symm
    constructor
    · exact fun _ _ _ _ _ _ _ h => h.elim
    · exact fun _ _ _ _ _ _ _ _ _ _ _ => trivial
    · exact fun _ h => h.elim
    · exact fun _ _ _ _ _ => trivial
    · exact fun _ _ _ _ _ _ => trivial
    · exact fun hno hstat => haccept false ⟨hvalid, hno, full, hfull, Or.inl hstat⟩
    · exact fun hno size hstat hover =>
        haccept true ⟨hvalid, hno, full, hfull, Or.inr ⟨hover, size, hstat⟩⟩
  · intro hhead _ hlen
    have hoffer : ∀ (t : UInt8) (n : Nat), up.drop (8 + (recvHeader up).pathLength) = [] →
        ServerWaits L root s up (confirmation t n) := by
      intro t n hnil
      rw [List.drop_eq_nil_iff] at hnil
      refine .offer hhead (Nat.le_antisymm hnil hlen) ?_
      rw [confirmation, length_recvConfirmation]
    refine ensures_isrReceiveRecvCommand hP (fun _ _ h => h.elim) (fun _ _ _ => trivial)
      (fun _ _ _ h => h.elim) (fun _ _ _ _ _ _ => trivial) (fun _ full size _ _ => ?_)
      (fun _ full size _ _ => ?_)
    · refine ensures_isrTransmitRecvDirectoryListing hP ?_
      constructor
      · exact fun h => h.elim
      · exact fun _ h => h.elim
      · exact fun _ => trivial
      · exact fun _ _ _ _ => trivial
      · exact fun n hnil => hoffer _ n hnil
      · exact fun _ _ => trivial
      · exact fun _ _ _ => trivial
      · exact fun _ _ _ _ _ _ _ _ => trivial
      · exact fun _ _ _ _ _ _ => trivial
    · constructor
      · exact fun _ _ _ => trivial
      · exact fun hnil => hoffer _ size hnil
      · exact fun _ => trivial
      · exact fun _ _ => trivial
      · exact fun _ _ _ _ h => h.elim
      · exact fun _ _ _ _ _ => trivial
      · intro go rest fd s' _ _ _
        exact ensures_transmitFile_outline hP (fun _ _ h => h.elim) fun _ _ _ _ => trivial

/-! ## Both sides -/

/-- A client that waits has sent its whole command, and the server one that is not the
rest of it. -/
theorem download_apart {L : Lz4} {remotePath root up down : List UInt8} {flags : UInt8}
    {blockSize : Nat} {t : Sys}
    (hc : DownloadWaits (recvCommandBytes remotePath flags blockSize) down up)
    (hs : ServerWaits L root t up down) : False := by
  obtain ⟨rest, rfl, hrest⟩ : ∃ rest, up = recvCommandBytes remotePath flags blockSize ++ rest ∧
      (rest = [] → down.length < sizeofRecvConfirmation) := by
    rcases hc with ⟨rfl, hlt⟩ | rfl
    · exact ⟨[], (List.append_nil _).symm, fun _ => hlt⟩
    · exact ⟨_, rfl, fun h => absurd h (by simp)⟩
  have hlen := length_recvCommandBytes remotePath flags blockSize
  cases hs with
  | command hlt =>
    have hle := commandLength_recvCommandBytes remotePath flags blockSize rest
    rw [List.length_append] at hlt
    omega
  | data hhead =>
    rw [head_recvCommandBytes] at hhead
    exact absurd hhead (by decide)
  | offer _ hup hdown =>
    rw [recvHeader_recvCommandBytes, List.length_append, hlen] at hup
    have hnil : rest = [] := List.eq_nil_of_length_eq_zero (by simp only at hup; omega)
    have hlt := hrest hnil
    omega

theorem upload_apart {L : Lz4} {remotePath localFile root up down : List UInt8} {flags : UInt8}
    {blockSize : Nat} {s t : Sys} {reads : List (Option (List UInt8))}
    (hL : BlocksRoundTrip L blockSize) (hblock : blockSize < 256 ^ 4)
    (hfile : Accepts t root flags (cstr (remotePath.take (pathLen remotePath))) →
      ∀ isDir size, s.StatStep localFile (some (isDir, size)) →
        Suffices L flags blockSize (size % word64) reads)
    (hc : UploadWaits L remotePath localFile flags blockSize s reads down up)
    (hs : ServerWaits L root t up down) : False := by
  obtain ⟨isDir, size, hstat, hc⟩ := hc
  obtain ⟨rest, rfl, hrest⟩ : ∃ rest,
      up = sendCommandBytes remotePath flags blockSize size ++ rest ∧
      ((rest = [] ∧ down.length < sizeofResponse) ∨
        (rest = dataStream L flags blockSize (chunksRead (readLength flags blockSize) reads) ∧
          ¬ Noticed L flags blockSize (chunksRead (readLength flags blockSize) reads)
            (endsInError (readLength flags blockSize) reads) ∧
          toInt64 (checksumOf (chunksRead (readLength flags blockSize) reads).flatten) ≠ -1)) := by
    rcases hc with ⟨rfl, hlt⟩ | ⟨rfl, h⟩
    · exact ⟨[], (List.append_nil _).symm, Or.inl ⟨rfl, hlt⟩⟩
    · exact ⟨_, rfl, Or.inr ⟨rfl, h⟩⟩
  have hlen := length_sendCommandBytes remotePath flags blockSize size
  cases hs with
  | command hlt =>
    have hle := commandLength_sendCommandBytes remotePath flags blockSize size rest
    rw [List.length_append] at hlt
    omega
  | data _ _ hacc hdown hinc =>
    rw [sendHeader_sendCommandBytes, sendPath_sendCommandBytes] at hacc
    rw [sendHeader_sendCommandBytes] at hinc
    simp only at hacc hinc
    rw [List.drop_left' hlen, Nat.mod_eq_of_lt hblock] at hinc
    rcases hrest with ⟨-, hlt⟩ | ⟨rfl, hquiet, hcode⟩
    · omega
    · exact not_incomplete hL (Nat.mod_lt _ (by decide)) hquiet hcode
        (hfile hacc isDir size hstat) hinc
  | offer hhead =>
    rw [head_sendCommandBytes] at hhead
    exact absurd hhead (by decide)

/-- **No deadlock in a session.**  An upload and the server's handler never wait for each
other if the reads of the file suffice for the announced length, or the server does not
accept the file anyway; a download and the handler never do.  This holds in every state
that any interleaving reaches. -/
theorem no_deadlock (L : Lz4) (fuel fuel' : Nat) (flags : UInt8) (blockSize : Nat)
    (remotePath localFile localPath localDir root : List UInt8) (s s' t : Sys) (sc : Script)
    {F G : Faults} (hF : F.reads = false) (hs : s.script = some sc)
    (hL : BlocksRoundTrip L blockSize) (hblock : blockSize < 256 ^ 4)
    (hfile : Accepts t root flags (cstr (remotePath.take (pathLen remotePath))) →
      ∀ isDir size, s.StatStep localFile (some (isDir, size)) →
        Suffices L flags blockSize (size % word64) sc.reads) :
    (∀ d, Run (Sys.step F) (Sys.step G)
      (initial (isrCliSendFile L fuel remotePath localFile flags blockSize) s
        (serveConnection L fuel' root) t) d → ¬ Deadlocked d) ∧
    (∀ d, Run (Sys.step F) (Sys.step G)
      (initial (isrCliDownloadFile L fuel remotePath localPath flags blockSize) s'
        (serveConnection L fuel' root) t) d → ¬ Deadlocked d) ∧
    (∀ d, Run (Sys.step F) (Sys.step G)
      (initial (isrCliRecv L fuel remotePath localDir flags blockSize) s'
        (serveConnection L fuel' root) t) d → ¬ Deadlocked d) := by
  refine ⟨fun d hd => ?_, fun d hd => ?_, fun d hd => ?_⟩
  · exact not_deadlocked (upload_stuck hF hs) (fun _ => server_stuck)
      (fun _ _ => upload_apart hL hblock hfile) hd
  · exact not_deadlocked download_stuck (fun _ => server_stuck) (fun _ _ => download_apart) hd
  · exact not_deadlocked recv_stuck (fun _ => server_stuck) (fun _ _ => download_apart) hd

/-- A file of three bytes that stays as it is. -/
theorem no_deadlock_threeBytes : ¬ ∃ d, Run (Sys.step Faults.none) (Sys.step Faults.all)
    (initial (isrCliSendFile shortLz4 2 [0x66] [slash, 0x66] 0 8) (changing ⟨3, [some [1, 2, 3]]⟩)
      (serveConnection shortLz4 2 [slash]) (.initial .empty)) d ∧ Deadlocked d := by
  rintro ⟨d, hrun, hdead⟩
  refine (no_deadlock shortLz4 2 2 0 8 [0x66] [slash, 0x66] [] [] [slash] _ (.initial .empty) _
    ⟨3, [some [1, 2, 3]]⟩ rfl rfl (fun _ => shortLz4_roundTrip (by decide)) (by decide) ?_).1
    d hrun hdead
  intro _ isDir size hstat
  obtain ⟨-, rfl⟩ : isDir = false ∧ size = 3 := by
    have hr : some (isDir, size) = some (false, 3) := (statStep_script rfl rfl rfl).mp hstat
    simpa using hr
  refine Or.inr (Or.inr ?_)
  rw [if_neg (by decide)]
  decide

/-- **A file that shrinks.**  One byte is announced and none is streamed; the server
waits for the last byte of the checksum, and the client for the result. -/
theorem no_deadlock_shrunk : ∃ d, Run (Sys.step Faults.none) (Sys.step Faults.none)
    (initial (isrCliSendFile shortLz4 2 [0x66] [slash, 0x66] 0 8) (changing ⟨1, []⟩)
      (serveConnection shortLz4 2 [slash]) (.initial .empty)) d ∧ Deadlocked d :=
  ⟨turns (fun _ s op => s.answer op) 60 _,
    run_turns (fun _ _ _ _ _ h => Sys.step_of_answer h)
      (fun _ _ _ _ _ h => Sys.step_of_answer h) 60,
    by decide +kernel⟩

end IsrTransfer
