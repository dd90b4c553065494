import IsrTransfer.ClientRules
import IsrTransfer.ListingParser
import IsrTransfer.RoundTrip

/-!
# Runs of a download

`isr_cli_download_directory` calls itself on entries whose names the server has chosen.
Here it is taken apart at the places where what the server says decides how it goes on
(`afterListing`, `downloadEntry`, `downloadInto`), and runs are built that come to these
places.

For a statement about what servers of some kind can do, the runs have to stay within what
servers of that kind may send.  So they are runs of `serving P`: everything is as in
`machine`, except that the client only gets connections on which the server sends
something that satisfies `P`.

Such a run is built operation by operation, and an operation of the client is not looked at for
what it does but for having an answer (`Serves`).  Then the rules for the functions, which were
made to show that nothing goes wrong, give runs (`Ensures.exists_restrict`): a guard that says
that there is an answer to every operation keeps a program from getting stuck, and no program goes
on for ever.
-/

namespace IsrTransfer

open Effect Posix

/-! ## The download in parts -/

section Parts

variable (L : Lz4) (fuel : Nat) (flags : UInt8) (blockSize depth : Nat)
  (remotePath localDir : List UInt8)

/-- The part of `isr_cli_download_directory` that follows the parser. -/
def afterParse (parsed : Option (List IsrCliDirEntry) × Nat) : Prog Int := do
  if parsed.1 = none ∧ parsed.2 ≠ 0 then
    complain "Failed to parse directory listing\n" []
    return -1
  let _ ← isrMkdirRecursive localDir
  downloadEntries L fuel (isrCliDownloadDirectory L fuel flags blockSize depth) remotePath
    localDir flags blockSize (parsed.1.getD []) 0

/-- The part of `isr_cli_download_directory` that has received the listing `buf`. -/
def afterListing (buf : List UInt8) : Prog Int :=
  isrCliParseDirectoryListing buf >>=
    afterParse L fuel flags blockSize depth remotePath localDir

/-- The download of one entry. -/
def downloadEntry (e : IsrCliDirEntry) : Prog Int :=
  if e.isDirectory ≠ 0 then
    isrCliDownloadDirectory L fuel flags blockSize depth
      (snprintfPath remotePath e.name isrPathMax) (snprintfPath localDir e.name isrPathMax)
  else
    isrCliDownloadFile L fuel (snprintfPath remotePath e.name isrPathMax)
      (snprintfPath localDir e.name isrPathMax) flags blockSize

end Parts

section Runs

variable {L : Lz4} {fuel : Nat} {flags : UInt8} {blockSize depth : Nat}
  {remotePath localDir : List UInt8} {w : World}

theorem downloadEntries_cons (e : IsrCliDirEntry) (es : List IsrCliDirEntry) (result : Int) :
    ∃ format path, downloadEntries L fuel (isrCliDownloadDirectory L fuel flags blockSize depth)
      remotePath localDir flags blockSize (e :: es) result =
      (downloadEntry L fuel flags blockSize depth remotePath localDir e >>= fun ret =>
        noteFailure ret format path result) >>=
      downloadEntries L fuel (isrCliDownloadDirectory L fuel flags blockSize depth)
        remotePath localDir flags blockSize es := by
  by_cases he : e.isDirectory ≠ 0
  · refine ⟨"Failed to download directory: %s\n", snprintfPath remotePath e.name isrPathMax, ?_⟩
    rw [downloadEntries, downloadEntry, if_pos he, if_pos he]
    exact (Program.bind_assoc _ _ _).symm
  · refine ⟨"Failed to download file: %s\n", snprintfPath remotePath e.name isrPathMax, ?_⟩
    rw [downloadEntries, downloadEntry, if_neg he, if_neg he]
    exact (Program.bind_assoc _ _ _).symm

/-! ## A server that sends what it may -/

/-- The operation starts a connection. -/
def Connects {ρ : Type} (op : NetOp OsOp ρ) : Prop :=
  match op with
  | .connect => True
  | _ => False

/-- A connection is the only thing that changes what the peer sends. -/
theorem input_of_step {F : Faults} {lossy eof : Bool} {ρ : Type} {op : NetOp OsOp ρ} {r : ρ}
    {v : World} (hr : machine F lossy eof w op r v) (hop : ¬ Connects op) : v.input = w.input := by
  cases op with
  | recv room len => rcases hr with ⟨k, -, -, -, -, rfl⟩ | ⟨-, -, rfl⟩ <;> rfl
  | connect => exact absurd trivial hop
  | send data => rcases hr with ⟨k, -, -, -, rfl⟩ | ⟨-, -, rfl⟩ <;> rfl
  | close =>
    obtain rfl := hr
    rfl
  | sys op =>
    obtain ⟨s', -, rfl⟩ := hr
    rfl

/-- A server that sends what satisfies `P`, and a client for which nothing fails. -/
def serving (P : List UInt8 → Prop) : Env (NetOp OsOp) World :=
  Env.restrict (machine Faults.none false false) fun w => P w.input

/-- The operation has an answer from such a server. -/
def Serves (P : List UInt8 → Prop) : Guard (NetOp OsOp) World := fun _ w op =>
  P w.input → ∃ r v, machine Faults.none false false w op r v ∧ P v.input

variable {P : List UInt8 → Prop}

theorem serves_of_answered {ρ : Type} {op : NetOp OsOp ρ} (hop : ¬ Connects op)
    (h : Answered (machine Faults.none false false) w op) : Serves P w op := by
  intro hw
  obtain ⟨r, v, hr⟩ := h
  exact ⟨r, v, hr, by rwa [input_of_step hr hop]⟩

theorem permits_serves (P : List UInt8 → Prop) : Permits (Serves P) where
  send _ _ h := serves_of_answered not_false (answered_send h)
  close w := serves_of_answered not_false ⟨(), w, rfl⟩
  read _ fd len := serves_of_answered not_false (answered_read fd len)
  write _ fd _ h := serves_of_answered not_false (answered_write fd h)
  closeFd _ fd := serves_of_answered not_false (answered_close fd)
  malloc _ n := serves_of_answered not_false (answered_malloc n)
  print _ _ := serves_of_answered not_false (answered_sys ⟨(), _, rfl⟩)
  eprint _ _ := serves_of_answered not_false (answered_sys ⟨(), _, rfl⟩)

/-! ## The runs

`serving P` is the environment in which the server may send anything that satisfies `P`, and
nothing fails.  The lemmas bring the client from the beginning of an operation to the place in
it that a caller is interested in: behind the confirmation, behind the listing, in front of the
download of one entry. -/

/-- The server may send anything that satisfies `P`. -/
theorem reaches_recvConnect {input : List UInt8} (h : sizeofRecvConfirmation ≤ input.length)
    (hinput : P input) :
    Reaches (serving P) (recvConnect remotePath flags blockSize) w
      (.ret (some (confirmationOf input)))
      (confirmedWorld w.sys input (recvCommandBytes remotePath flags blockSize)) := by
  have hP := permits_serves P
  have hcommand : Ensures (machine Faults.none false false) (Serves P)
      (isrTransmitRecvCommand remotePath flags blockSize)
      (fun r v => r = 0 ∧ v = asked w.sys input (recvCommandBytes remotePath flags blockSize))
      (Proc.start w.sys input) :=
    ensures_isrTransmitRecvCommand hP ⟨rfl, rfl⟩ fun hl => absurd hl (by decide)
  have hconfirm : Ensures (machine Faults.none false false) (Serves P)
      (netRecvExact sizeofRecvConfirmation sizeofRecvConfirmation)
      (fun r v => r = some (input.take sizeofRecvConfirmation) ∧
        v = confirmedWorld w.sys input (recvCommandBytes remotePath flags blockSize))
      (asked w.sys input (recvCommandBytes remotePath flags blockSize)) := by
    refine ensures_netRecvExact (fun k hk _ => ?_) (fun _ => ⟨rfl, rfl⟩)
      fun k _ _ hl => absurd hl (by simp)
    refine serves_of_answered not_false (answered_recv_within (by omega) ?_)
    exact (Nat.add_sub_cancel' hk.le).trans_le h
  obtain ⟨_, _, hsent, rfl, rfl⟩ := hcommand.exists_restrict hinput
  obtain ⟨_, _, hread, rfl, rfl⟩ := hconfirm.exists_restrict hinput
  unfold recvConnect
  refine .step (r := true) ⟨Or.inl ⟨rfl, input, rfl⟩, hinput⟩ ((hsent.bind _).trans ?_)
  rw [Program.ret_bind, if_neg (by decide)]
  exact hread.bind _

theorem reaches_sendGo (hw : P w.input) : Reaches (serving P) sendGo w (.ret 0)
    (w.sent [isrRecvGo]) := by
  have hgo : Ensures (machine Faults.none false false) (Serves P) sendGo
      (fun r v => r = 0 ∧ v = w.sent [isrRecvGo]) w :=
    ensures_sendGo (permits_serves P) ⟨rfl, rfl⟩ fun hl => absurd hl (by decide)
  obtain ⟨r, v, hrun, rfl, rfl⟩ := hgo.exists_restrict hw
  exact hrun

theorem exists_isrMkdirRecursive (hw : P w.input) (path : List UInt8) : ∃ r s,
    Reaches (serving P) (isrMkdirRecursive path) w (.ret r) (w.withSys s) := by
  have hmkdir : Ensures (machine Faults.none false false) (Serves P) (isrMkdirRecursive path)
      (fun _ v => ∃ s, v = w.withSys s) w :=
    ensures_isrMkdirRecursive' (fun _ p _ _ _ _ =>
      serves_of_answered not_false (answered_mkdir p)) fun _ s _ => ⟨s, rfl⟩
  obtain ⟨r, v, hrun, s, rfl⟩ := hmkdir.exists_restrict hw
  exact ⟨r, s, hrun⟩

/-- What a server sends that lists a directory. -/
def directoryInput (buf : List UInt8) : List UInt8 :=
  confirmation isrRecvTypeDirectory buf.length ++ plainStream buf

theorem confirmationOf_directoryInput {buf : List UInt8} (hbuf : buf.length < word64) :
    confirmationOf (directoryInput buf) = ⟨isrRecvTypeDirectory, buf.length⟩ := by
  have hlen : (confirmation isrRecvTypeDirectory buf.length).length = sizeofRecvConfirmation :=
    length_recvConfirmation _
  have hmod : buf.length % 256 ^ 8 = buf.length := Nat.mod_eq_of_lt hbuf
  rw [confirmationOf, directoryInput, List.take_left' hlen, confirmation,
    ofBytes_recvConfirmation, hmod]

theorem drop_directoryInput (buf : List UInt8) :
    (directoryInput buf).drop sizeofRecvConfirmation = plainStream buf :=
  List.drop_left' (length_recvConfirmation _)

theorem sizeof_le_directoryInput (buf : List UInt8) :
    sizeofRecvConfirmation ≤ (directoryInput buf).length := by
  rw [directoryInput, List.length_append]
  exact (length_recvConfirmation _).ge.trans (Nat.le_add_right _ _)

/-- A server can send any listing. -/
theorem exists_afterListing {buf : List UInt8} (hbuf : buf.length < word64)
    (hinput : P (directoryInput buf)) : ∃ u,
    Reaches (serving P)
      (isrCliDownloadDirectory L fuel flags blockSize (depth + 1) remotePath localDir) w
      (afterListing L fuel flags blockSize depth remotePath localDir buf) u ∧
    u.sys = w.sys ∧ P u.input := by
  have hconnect := @reaches_recvConnect flags blockSize remotePath w P _
    (sizeof_le_directoryInput buf) hinput
  rw [confirmationOf_directoryInput hbuf] at hconnect
  generalize hu : confirmedWorld w.sys _ _ = u at hconnect
  have hrx : (u.sent [isrRecvGo]).rx = plainStream buf := by
    rw [← hu, Proc.sent_rx, confirmedWorld, Proc.received_rx, asked_rx, drop_directoryInput]
  have hsys : u.sys = w.sys := by
    rw [← hu]
    rfl
  have hu' : P u.input := by
    rw [← hu]
    exact hinput
  have hlisting : Ensures (machine Faults.none false false) (Serves P)
      (recvVerifiedListing buf.length)
      (fun r v => r = some buf ∧ v.sys = w.sys ∧ P v.input) (u.sent [isrRecvGo]) := by
    have hlong : (u.sent [isrRecvGo]).rx.length = buf.length + 8 := by
      rw [hrx, plainStream, List.length_append, length_toBe]
    have htake : (u.sent [isrRecvGo]).rx.take buf.length = buf := by
      rw [hrx, plainStream, List.take_left]
    refine ensures_recvVerifiedListing (permits_serves P)
      (fun k room len _ hpos _ hk => serves_of_answered not_false
        (answered_recv_within hpos (hk.trans hlong.ge)))
      (fun _ _ => ⟨congrArg some htake, hsys, hu'⟩) (fun _ hne => ?_) (fun k _ hk hl => ?_)
    · rw [htake, hrx, plainStream, List.drop_left, take_toBe, ofBe_checksumOf] at hne
      exact absurd rfl hne
    · exact absurd hl (by simp [Faults.none])
  obtain ⟨r, v, hrun, rfl, hv, hv'⟩ := hlisting.exists_restrict hu'
  refine ⟨v, ?_, hv, hv'⟩
  rw [isrCliDownloadDirectory]
  refine (hconnect.bind _).trans ?_
  rw [Program.ret_bind]
  simp only
  rw [if_neg (by decide), if_neg (by decide), if_neg (by decide), if_neg (by decide)]
  refine ((reaches_sendGo hu').bind _).trans ?_
  rw [Program.ret_bind, if_neg (by decide)]
  refine (hrun.bind _).trans ?_
  refine .step (r := ()) ⟨rfl, hv'⟩ ?_
  exact .refl _ _

/-- The parser gets all the entries. -/
theorem reaches_parse {es : List IsrCliDirEntry} (hes : ∀ e ∈ es, IsrCliDirEntry.Fits e)
    (hne : es ≠ []) (hw : P w.input) :
    Reaches (serving P) (isrCliParseDirectoryListing (listingBytes es)) w
      (.ret (some es, es.length)) w := by
  have hparse : Ensures (machine Faults.none false false) (Serves P)
      (isrCliParseDirectoryListing (listingBytes es ++ []))
      (fun parsed v => parsed = (some es, es.length) ∧ v = w) w :=
    ensures_isrCliParseDirectoryListing (permits_serves P) hes torn_nil
      (fun h => absurd h hne) (fun _ => ⟨rfl, rfl⟩) fun hf => absurd hf (by decide)
  rw [List.append_nil] at hparse
  obtain ⟨_, _, hrun, rfl, rfl⟩ := hparse.exists_restrict hw
  exact hrun

theorem IsrCliDirEntry.Fits.length_listingBytes {e : IsrCliDirEntry} (he : e.Fits) :
    (listingBytes [e]).length < word64 := by
  have hname := he.1
  rw [listingBytes_cons, listingBytes_nil, List.append_nil, length_entryBytes, he.pathLen]
  unfold word64
  omega

/-- An entry that a server announces is downloaded. -/
theorem exists_downloadEntry {e : IsrCliDirEntry} (he : e.Fits)
    (hinput : P (directoryInput (listingBytes [e]))) : ∃ u, P u.input ∧
    ∃ f : Int → Prog Int, Reaches (serving P)
      (isrCliDownloadDirectory L fuel flags blockSize (depth + 1) remotePath localDir) w
      ((downloadEntry L fuel flags blockSize depth remotePath localDir e).bind f) u := by
  have hfits : ∀ e' ∈ [e], IsrCliDirEntry.Fits e' := List.forall_mem_singleton.mpr he
  obtain ⟨u, hlisting, -, hu⟩ := @exists_afterListing L fuel flags blockSize depth remotePath
    localDir w P _ he.length_listingBytes hinput
  obtain ⟨r, s, hmkdir⟩ := @exists_isrMkdirRecursive u P hu localDir
  obtain ⟨format, path, heq⟩ := @downloadEntries_cons L fuel flags blockSize depth remotePath
    localDir e [] 0
  have hrun : Reaches (serving P)
      (isrCliDownloadDirectory L fuel flags blockSize (depth + 1) remotePath localDir) w
      (downloadEntries L fuel (isrCliDownloadDirectory L fuel flags blockSize depth) remotePath
        localDir flags blockSize [e] 0) (u.withSys s) := by
    refine hlisting.trans (((reaches_parse hfits (List.cons_ne_nil _ _) hu).bind _).trans ?_)
    rw [Program.ret_bind, afterParse, if_neg (by simp)]
    exact hmkdir.bind _
  rw [heq, Program.bind_eq, Program.bind_eq, Program.bind_assoc] at hrun
  exact ⟨u.withSys s, hu, _, hrun⟩

/-- A server can have a file where a directory has been asked for. -/
theorem exists_redirected {input : List UInt8} (hlen : sizeofRecvConfirmation ≤ input.length)
    (hinput : P input) (htype : (confirmationOf input).responseType = isrRecvTypeFile) :
    ∃ u, P u.input ∧ Reaches (serving P)
      (isrCliDownloadDirectory L fuel flags blockSize (depth + 1) remotePath localDir) w
      (isrCliDownloadFile L fuel remotePath
        (snprintfPath localDir (basename remotePath) isrPathMax) flags blockSize) u := by
  refine ⟨confirmedWorld w.sys input (recvCommandBytes remotePath flags blockSize), hinput, ?_⟩
  rw [isrCliDownloadDirectory]
  refine ((reaches_recvConnect hlen hinput).bind _).trans ?_
  rw [Program.ret_bind]
  simp only [htype]
  rw [if_neg (by decide), if_neg (by decide), if_pos trivial]
  exact .step (r := ()) ⟨rfl, hinput⟩ (.refl _ _)

/-- The part of `isr_cli_download_file` that follows the confirmation. -/
def downloadInto (L : Lz4) (fuel : Nat) (flags : UInt8) (blockSize n : Nat)
    (localPath : List UInt8) : Prog Int := do
  if let some parent := isrParentDir localPath isrPathMax then
    let _ ← isrMkdirRecursive parent
  receiveInto L fuel flags blockSize n localPath "  Failed to receive file.\n"
    "  Checksum mismatch!\n"

section Into

variable {n : Nat} {localPath : List UInt8}

theorem downloadInto_of_none (h : isrParentDir localPath isrPathMax = none) :
    downloadInto L fuel flags blockSize n localPath = receiveInto L fuel flags blockSize n
      localPath "  Failed to receive file.\n" "  Checksum mismatch!\n" := by
  unfold downloadInto
  rw [h]

theorem downloadInto_of_some {parent : List UInt8}
    (h : isrParentDir localPath isrPathMax = some parent) :
    downloadInto L fuel flags blockSize n localPath = isrMkdirRecursive parent >>= fun _ =>
      receiveInto L fuel flags blockSize n localPath "  Failed to receive file.\n"
        "  Checksum mismatch!\n" := by
  unfold downloadInto
  rw [h]

end Into

/-- A server can confirm any file. -/
theorem reaches_downloadInto {localPath input : List UInt8}
    (hlen : sizeofRecvConfirmation ≤ input.length) (hinput : P input)
    (htype : (confirmationOf input).responseType = isrRecvTypeFile) :
    Reaches (serving P) (isrCliDownloadFile L fuel remotePath localPath flags blockSize) w
      (downloadInto L fuel flags blockSize (confirmationOf input).effectiveLength localPath)
      ((confirmedWorld w.sys input (recvCommandBytes remotePath flags blockSize)).sent
        [isrRecvGo]) := by
  unfold isrCliDownloadFile
  refine ((reaches_recvConnect hlen hinput).bind _).trans ?_
  rw [Program.ret_bind]
  simp only [htype]
  rw [if_neg (by decide), if_neg (by decide)]
  have hw : P (confirmedWorld w.sys input (recvCommandBytes remotePath flags blockSize)).input :=
    hinput
  refine ((reaches_sendGo hw).bind _).trans ?_
  rw [Program.ret_bind, if_neg (by decide)]
  exact .refl _ _

end Runs

end IsrTransfer
