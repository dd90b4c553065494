import IsrTransfer.Client
import IsrTransfer.ServerRules

/-!
# What the client's operations do

The counterpart of the handlers' rules: one rule for each operation, with one case
for each way it can go.  What the server sends is not restricted.

Nearly every failure leaves a line on standard error.  `Complains` says that such
lines have been written and nothing else has happened.

The operations are put together from four pieces, and so are their rules.  `recv_connect` asks for
something and reads a confirmation (`ConnectCases`); a file that has been confirmed is received
into a local file (`IntoCases`); a session that sends a file asks, streams, and reads what has
become of it (`SessionCases`, `ResultCases`).  A rule for an operation has the cases of its pieces
as fields, with the paths and commands of the operation.

Of what a receiver returns, a number of eight bytes, the client only keeps whether it is negative,
and then it goes through an `int` (`narrowed`).  `TakenAsFailed` is what the client takes for a
failure.  It differs from a failure of the receiver for checksums from `2 ^ 63` on at most, some
of which read as one when they are cut to four bytes.
-/

namespace IsrTransfer

open Effect Posix

variable {F : Faults} {lossy eof : Bool} {A : Guard (NetOp OsOp) World} {w : World}

/-! ## Complaints -/

/-- The lines by which the recursive operations say which of their entries failed. -/
def failureFormats : List String :=
  ["Failed to upload directory: %s\n", "Failed to upload file: %s\n",
    "Failed to download directory: %s\n", "Failed to download file: %s\n"]

/-- `v` is `w` with some lines on standard error, none of which names a failed
entry. -/
def Complains (w v : World) : Prop :=
  ∃ lines : List Line, (∀ line ∈ lines, line.format ∉ failureFormats) ∧
    v = w.withSys { w.sys with errors := w.sys.errors ++ lines }

theorem Complains.refl (w : World) : Complains w w :=
  ⟨[], fun _ h => absurd h List.not_mem_nil, by rw [List.append_nil]; rfl⟩

theorem Complains.fs {v : World} (h : Complains w v) : v.sys.fs = w.sys.fs := by
  obtain ⟨lines, -, rfl⟩ := h
  rfl

theorem ensures_complain (hP : Permits A) {format : String} {args : List Arg}
    {Q : Unit → World → Prop} (hformat : format ∉ failureFormats)
    (hQ : ∀ v, Complains w v → Q () v) :
    Ensures (machine F lossy eof) A (complain format args) Q w := by
  unfold complain
  rw [ensures_eprint]
  refine ⟨hP.eprint _ _, hQ _ ⟨[⟨format, args⟩], ?_, rfl⟩⟩
  intro line hline
  obtain rfl := List.mem_singleton.mp hline
  exact hformat

/-- Complain, close the connection and fail. -/
theorem ensures_complainClose (hP : Permits A) {α : Type} {format : String} {args : List Arg}
    {a : α} {Q : α → World → Prop} (hformat : format ∉ failureFormats)
    (hQ : ∀ v, Complains w v → Q a v) :
    Ensures (machine F lossy eof) A (do
      complain format args
      netClose
      return a) Q w := by
  rw [ensures_bind]
  refine ensures_complain hP hformat fun v hv => ?_
  rw [ensures_bind, ensures_netClose]
  exact ⟨hP.close v, hQ v hv⟩

theorem ensures_complainFail (hP : Permits A) {α : Type} {format : String} {args : List Arg}
    {a : α} {Q : α → World → Prop} (hformat : format ∉ failureFormats)
    (hQ : ∀ v, Complains w v → Q a v) :
    Ensures (machine F lossy eof) A (do
      complain format args
      return a) Q w := by
  rw [ensures_bind]
  exact ensures_complain hP hformat hQ

/-- The rule for what the loops over entries say after each of them. -/
theorem ensures_noteFailure (hP : Permits A) {ret result : Int} {format : String}
    {path : List UInt8} :
    Ensures (machine F lossy eof) A (noteFailure ret format path result) (fun _ _ => True) w := by
  unfold noteFailure
  split
  · rw [ensures_bind, complain, ensures_eprint]
    exact ⟨hP.eprint _ _, trivial⟩
  · trivial

/-! ## Asking for something -/

/-- The client has asked for something, on a connection on which the server sends
`input`. -/
def asked (s : Sys) (input command : List UInt8) : World := (Proc.start s input).sent command

section Asked

variable (s s' : Sys) (input command : List UInt8)

@[simp] theorem asked_sys : (asked s input command).sys = s := rfl
@[simp] theorem asked_rx : (asked s input command).rx = input := rfl
@[simp] theorem asked_tx : (asked s input command).tx = command := rfl
@[simp] theorem asked_input : (asked s input command).input = input := rfl

@[simp] theorem asked_withSys : (asked s input command).withSys s' = asked s' input command := rfl

end Asked

/-- What has to be shown about `recv_connect`. -/
structure ConnectCases (F : Faults) (lossy eof : Bool) (A : Guard (NetOp OsOp) World)
    (command : List UInt8) (Q : Option IsrRecvConfirmation → World → Prop) (w : World) :
    Prop where
  connect : A w .connect
  /-- There is no connection. -/
  refused : lossy → ∀ v, Complains w v → Q none v
  /-- The command does not get through. -/
  cut : lossy → ∀ input data v, Complains (asked w.sys input data) v → Q none v
  /-- The confirmation is received. -/
  recv : ∀ input k, k < sizeofRecvConfirmation → k ≤ input.length →
    A ((asked w.sys input command).received k)
      (.recv (sizeofRecvConfirmation - k) (sizeofRecvConfirmation - k))
  /-- It does not come. -/
  short : ∀ input k v, k < sizeofRecvConfirmation → k ≤ input.length →
    (lossy ∨ (eof ∧ k = input.length)) →
    Complains ((asked w.sys input command).received k) v → Q none v
  /-- It comes. -/
  confirmed : ∀ input, sizeofRecvConfirmation ≤ input.length →
    Q (some (.ofBytes (input.take sizeofRecvConfirmation)))
      ((asked w.sys input command).received sizeofRecvConfirmation)

theorem ensures_recvConnect (hP : Permits A) {remotePath : List UInt8} {flags : UInt8}
    {blockSize : Nat} {Q : Option IsrRecvConfirmation → World → Prop}
    (h : ConnectCases F lossy eof A (recvCommandBytes remotePath flags blockSize) Q w) :
    Ensures (machine F lossy eof) A (recvConnect remotePath flags blockSize) Q w := by
  unfold recvConnect
  rw [ensures_bind, ensures_netConnect]
  refine ⟨h.connect, fun input => ?_, fun hl => ?_⟩
  · rw [if_neg (by decide), ensures_bind]
    refine ensures_isrTransmitRecvCommand hP ?_ (fun hl data => ?_)
    · rw [if_neg (by decide), ensures_bind]
      refine ensures_netRecvExact (h.recv input) (h.confirmed input) fun k hk hkr hl => ?_
      exact ensures_complainClose hP (by decide) fun v hv => h.short input k v hk hkr hl hv
    · rw [if_pos rfl]
      exact ensures_complainClose hP (by decide) fun v hv => h.cut hl input data v hv
  · rw [if_pos rfl]
    exact ensures_complainFail hP (by decide) (h.refused hl)

/-- One byte that says that the data is wanted. -/
theorem ensures_sendGo (hP : Permits A) {Q : Int → World → Prop}
    (hok : Q 0 (w.sent [isrRecvGo])) (hfail : lossy → ∀ v, Complains w v → Q (-1) v) :
    Ensures (machine F lossy eof) A sendGo Q w := by
  unfold sendGo
  rw [ensures_bind, ensures_netSend]
  refine ⟨hP.send _ _ (by simp), fun k hk hlen => ?_, fun hl => ?_⟩
  · obtain rfl : k = 1 := by
      rw [List.length_singleton] at hlen
      omega
    exact hok
  · exact ensures_complainFail hP (by decide) (hfail hl)

/-! ## Receiving a file

The rules have the shape of the operations.  `IntoCases` is about the part that opens the local
file and receives into it, `DownloadCases` and `RecvCases` are about the two operations that
contain this part.  Each lists the ways in which its operation can go, with what has to be shown
of the state then. -/

def Failed (r : Int) : Prop := r = -1 ∨ r = -2

instance : DecidablePred Failed := fun r => inferInstanceAs (Decidable (r = -1 ∨ r = -2))

/-- The client takes it that the transfer failed.  Besides the failures these are the
checksums of which only the lower half reads as one. -/
def TakenAsFailed (r : Int) : Prop := Failed (if 0 ≤ r then 0 else narrowed r)

instance : DecidablePred TakenAsFailed := fun _ => inferInstanceAs (Decidable (Failed _))

theorem Failed.taken {r : Int} (h : Failed r) : TakenAsFailed r := by
  rcases h with rfl | rfl
  · exact Or.inl (by decide)
  · exact Or.inr (by decide)

/-- What has to be shown about the part of an operation that receives a file into
`outPath`. -/
structure IntoCases (F : Faults) (lossy eof : Bool) (A : Guard (NetOp OsOp) World) (L : Lz4)
    (fuel : Nat) (flags : UInt8) (blockSize n : Nat) (outPath : List UInt8)
    (Q : Int → World → Prop) (w : World) : Prop where
  openWrite : A w (.sys (.openWrite outPath))
  /-- The file cannot be opened. -/
  fail : (w.sys.openWrite outPath).1 = none ∨ F.opens → ∀ v, Complains w v → Q (-1) v
  /-- The file is open: receive it. -/
  data : ∀ fd s, w.sys.openWrite outPath = (some fd, s) →
    Ensures (machine F lossy eof) A (receiveFile L fuel fd flags blockSize n)
      (fun r v =>
        (TakenAsFailed r → ∀ u, Complains v u → Q (-1) u) ∧ (¬ TakenAsFailed r → Q 0 v))
      (w.withSys s)

theorem ensures_reportReceived (hP : Permits A) {x : Int} {failed mismatch : String}
    {Q : Int → World → Prop} (hfailed : failed ∉ failureFormats)
    (hmismatch : mismatch ∉ failureFormats) (hbad : Failed x → ∀ u, Complains w u → Q (-1) u)
    (hok : ¬ Failed x → Q 0 w) :
    Ensures (machine F lossy eof) A (reportReceived x failed mismatch) Q w := by
  unfold reportReceived
  split
  case isTrue h => exact ensures_complainFail hP hfailed (hbad (Or.inl h))
  case isFalse h =>
    split
    case isTrue h' => exact ensures_complainFail hP hmismatch (hbad (Or.inr h'))
    case isFalse h' => exact hok fun hr => hr.elim h h'

/-- Open the file that is downloaded, and receive it. -/
def receiveInto (L : Lz4) (fuel : Nat) (flags : UInt8) (blockSize n : Nat)
    (outPath : List UInt8) (failed mismatch : String) : Prog Int := do
  match ← isrOpenWrite outPath with
  | none =>
    complain "Error: cannot open '%s' for writing\n" [.str outPath]
    netClose
    return -1
  | some fd =>
    let result ← receiveFileData L fuel fd flags blockSize n
    isrClose fd
    netClose
    reportReceived result failed mismatch

theorem ensures_receiveInto (hP : Permits A) {L : Lz4} {fuel : Nat} {flags : UInt8}
    {blockSize n : Nat} {outPath : List UInt8} (failed mismatch : String)
    {Q : Int → World → Prop} (hfailed : failed ∉ failureFormats)
    (hmismatch : mismatch ∉ failureFormats)
    (h : IntoCases F lossy eof A L fuel flags blockSize n outPath Q w) :
    Ensures (machine F lossy eof) A
      (receiveInto L fuel flags blockSize n outPath failed mismatch) Q w := by
  unfold receiveInto
  rw [ensures_bind, ensures_openWrite]
  refine ⟨h.openWrite, ?_, fun hf => ?_⟩
  · cases hres : w.sys.openWrite outPath with
    | mk result s =>
      cases result with
      | none =>
        have hsame : s = w.sys := by
          have hnone := Sys.openWrite_none (congrArg Prod.fst hres)
          rw [hres] at hnone
          exact hnone
        rw [hsame, Proc.withSys_self]
        exact ensures_complainClose hP (by decide) (h.fail (Or.inl (congrArg Prod.fst hres)))
      | some fd =>
        unfold receiveFileData
        simp only [ensures_bind, ensures_close, ensures_netClose, ensures_pure]
        refine (h.data fd s hres).mono fun r v hv => ⟨hP.closeFd _ _, hP.close _, ?_⟩
        exact ensures_reportReceived hP hfailed hmismatch hv.1 hv.2
  · exact ensures_complainClose hP (by decide) (h.fail (Or.inr hf))

/-- The client has asked for `remotePath` and got a confirmation; `input` is what the
server sends. -/
def confirmedWorld (s : Sys) (input command : List UInt8) : World :=
  (asked s input command).received sizeofRecvConfirmation

/-- The confirmation that a stream begins with. -/
def confirmationOf (input : List UInt8) : IsrRecvConfirmation :=
  .ofBytes (input.take sizeofRecvConfirmation)

theorem confirmationOf_append (t : UInt8) (m : Nat) (rest : List UInt8) :
    confirmationOf (confirmation t m ++ rest) = ⟨t, m % 256 ^ 8⟩ := by
  have hlen : (confirmation t m).length = sizeofRecvConfirmation := length_recvConfirmation _
  rw [confirmationOf, List.take_left' hlen, confirmation, ofBytes_recvConfirmation]

/-- What has to be shown about `isr_cli_download_file`. -/
structure DownloadCases (F : Faults) (lossy eof : Bool) (A : Guard (NetOp OsOp) World)
    (L : Lz4) (fuel : Nat) (command localPath : List UInt8) (flags : UInt8) (blockSize : Nat)
    (Q : Int → World → Prop) (w : World) : Prop where
  /-- There is no confirmation. -/
  connection : ConnectCases F lossy eof A command
    (fun conf v => conf = none → Q (-1) v) w
  /-- It does not announce a file. -/
  other : ∀ input v, sizeofRecvConfirmation ≤ input.length →
    (confirmationOf input).responseType ≠ isrRecvTypeFile →
    Complains (confirmedWorld w.sys input command) v → Q (-1) v
  /-- The client cannot answer. -/
  mute : lossy → ∀ input v, sizeofRecvConfirmation ≤ input.length →
    (confirmationOf input).responseType = isrRecvTypeFile →
    Complains (confirmedWorld w.sys input command) v → Q (-1) v
  /-- A parent directory is made. -/
  mkdir : ∀ input, sizeofRecvConfirmation ≤ input.length →
    (confirmationOf input).responseType = isrRecvTypeFile → ∀ ps p qs s,
    parentTargets localPath = ps ++ p :: qs → Mkdirs F w.sys ps s →
    A ((confirmedWorld s input command).sent [isrRecvGo]) (.sys (.mkdir p))
  /-- The file is received. -/
  file : ∀ input, sizeofRecvConfirmation ≤ input.length →
    (confirmationOf input).responseType = isrRecvTypeFile → ∀ s,
    Mkdirs F w.sys (parentTargets localPath) s →
    IntoCases F lossy eof A L fuel flags blockSize (confirmationOf input).effectiveLength
      localPath Q ((confirmedWorld s input command).sent [isrRecvGo])

theorem ensures_isrCliDownloadFile (hP : Permits A) {L : Lz4} {fuel : Nat}
    {remotePath localPath : List UInt8} {flags : UInt8} {blockSize : Nat}
    {Q : Int → World → Prop}
    (h : DownloadCases F lossy eof A L fuel (recvCommandBytes remotePath flags blockSize)
      localPath flags blockSize Q w) :
    Ensures (machine F lossy eof) A
      (isrCliDownloadFile L fuel remotePath localPath flags blockSize) Q w := by
  unfold isrCliDownloadFile
  rw [ensures_bind]
  have hc := h.connection
  refine ensures_recvConnect hP ⟨hc.connect, fun hl v hv => hc.refused hl v hv rfl,
    fun hl input data v hv => hc.cut hl input data v hv rfl, hc.recv,
    fun input k v hk hkr hl hv => hc.short input k v hk hkr hl hv rfl, fun input hlen => ?_⟩
  change Ensures _ _ (if (confirmationOf input).responseType = isrRecvTypeNotFound then _
    else if (confirmationOf input).responseType ≠ isrRecvTypeFile then _ else _) Q
    (confirmedWorld w.sys input (recvCommandBytes remotePath flags blockSize))
  split
  case isTrue hmissing =>
    refine ensures_complainClose hP (by decide) fun v hv => h.other input v hlen ?_ hv
    rw [hmissing]
    decide
  case isFalse =>
    split
    case isTrue hother =>
      exact ensures_complainClose hP (by decide) fun v hv => h.other input v hlen hother hv
    case isFalse hfile =>
      rw [not_not] at hfile
      rw [ensures_bind]
      refine ensures_sendGo hP ?_ fun hl v hv => ?_
      · rw [if_neg (by decide)]
        have hinto : ∀ s, Mkdirs F w.sys (parentTargets localPath) s → Ensures _ _ _ Q
            ((confirmedWorld s input (recvCommandBytes remotePath flags blockSize)).sent
              [isrRecvGo]) :=
          fun s hs => ensures_receiveInto hP "  Failed to receive file.\n"
            "  Checksum mismatch!\n" (by decide) (by decide) (h.file input hlen hfile s hs)
        have hmkdir := h.mkdir input hlen hfile
        unfold parentTargets at hmkdir hinto
        cases hparent : isrParentDir localPath isrPathMax with
        | none =>
          rw [hparent] at hinto
          exact hinto w.sys (.nil _)
        | some parent =>
          rw [hparent] at hmkdir hinto
          rw [ensures_bind]
          exact ensures_isrMkdirRecursive' hmkdir fun r s hs => hinto s hs
      · rw [if_pos rfl, ensures_bind, ensures_netClose]
        exact ⟨hP.close _, h.mute hl input v hlen hfile hv⟩

/-- What has to be shown about `isr_cli_recv`. -/
structure RecvCases (F : Faults) (lossy eof : Bool) (A : Guard (NetOp OsOp) World) (L : Lz4)
    (fuel : Nat) (command outPath localDir : List UInt8) (flags : UInt8) (blockSize : Nat)
    (Q : Int → World → Prop) (w : World) : Prop where
  /-- There is no confirmation. -/
  connection : ConnectCases F lossy eof A command
    (fun conf v => conf = none → Q (-1) v) w
  /-- It announces neither a file nor a directory. -/
  other : ∀ input v, sizeofRecvConfirmation ≤ input.length →
    (confirmationOf input).responseType ≠ isrRecvTypeFile →
    (confirmationOf input).responseType ≠ isrRecvTypeDirectory →
    Complains (confirmedWorld w.sys input command) v → Q (-1) v
  /-- The client cannot answer. -/
  mute : lossy → ∀ input v, sizeofRecvConfirmation ≤ input.length →
    Complains (confirmedWorld w.sys input command) v → Q (-1) v
  /-- The listing is received. -/
  directory : ∀ input, sizeofRecvConfirmation ≤ input.length →
    (confirmationOf input).responseType = isrRecvTypeDirectory →
    Ensures (machine F lossy eof) A
      (isrReceiveDirectoryListing (confirmationOf input).effectiveLength)
      (fun r v => Q (if r = 0 then 0 else -1) v)
      ((confirmedWorld w.sys input command).sent [isrRecvGo])
  /-- The local directory is made. -/
  mkdir : ∀ input, sizeofRecvConfirmation ≤ input.length →
    (confirmationOf input).responseType = isrRecvTypeFile → ∀ ps p qs s,
    mkdirTargets localDir = ps ++ p :: qs → Mkdirs F w.sys ps s →
    A ((confirmedWorld s input command).sent [isrRecvGo]) (.sys (.mkdir p))
  /-- The file is received. -/
  file : ∀ input, sizeofRecvConfirmation ≤ input.length →
    (confirmationOf input).responseType = isrRecvTypeFile → ∀ s,
    Mkdirs F w.sys (mkdirTargets localDir) s →
    IntoCases F lossy eof A L fuel flags blockSize (confirmationOf input).effectiveLength
      outPath Q ((confirmedWorld s input command).sent [isrRecvGo])

theorem ensures_isrCliRecv (hP : Permits A) {L : Lz4} {fuel : Nat}
    {remotePath localDir : List UInt8} {flags : UInt8} {blockSize : Nat}
    {Q : Int → World → Prop}
    (h : RecvCases F lossy eof A L fuel (recvCommandBytes remotePath flags blockSize)
      (snprintfPath localDir (basename remotePath) isrPathMax) localDir flags blockSize Q w) :
    Ensures (machine F lossy eof) A
      (isrCliRecv L fuel remotePath localDir flags blockSize) Q w := by
  unfold isrCliRecv
  rw [ensures_bind]
  have hc := h.connection
  refine ensures_recvConnect hP ⟨hc.connect, fun hl v hv => hc.refused hl v hv rfl,
    fun hl input data v hv => hc.cut hl input data v hv rfl, hc.recv,
    fun input k v hk hkr hl hv => hc.short input k v hk hkr hl hv rfl, fun input hlen => ?_⟩
  change Ensures _ _ (if (confirmationOf input).responseType = isrRecvTypeNotFound then _
    else if (confirmationOf input).responseType = isrResultOtherFailure then _
    else if (confirmationOf input).responseType = isrRecvTypeDirectory then _
    else if (confirmationOf input).responseType = isrRecvTypeFile then _ else _) Q
    (confirmedWorld w.sys input (recvCommandBytes remotePath flags blockSize))
  have hmute : ∀ v, Complains
      (confirmedWorld w.sys input (recvCommandBytes remotePath flags blockSize)) v → lossy →
      Ensures (machine F lossy eof) A (do
        netClose
        return -1) Q v := by
    intro v hv hl
    rw [ensures_bind, ensures_netClose]
    exact ⟨hP.close _, h.mute hl input v hlen hv⟩
  by_cases hmissing : (confirmationOf input).responseType = isrRecvTypeNotFound
  · rw [if_pos hmissing]
    refine ensures_complainClose hP (by decide) fun v hv => h.other input v hlen ?_ ?_ hv <;>
    · rw [hmissing]
      decide
  rw [if_neg hmissing]
  by_cases hfailure : (confirmationOf input).responseType = isrResultOtherFailure
  · rw [if_pos hfailure]
    refine ensures_complainClose hP (by decide) fun v hv => h.other input v hlen ?_ ?_ hv <;>
    · rw [hfailure]
      decide
  rw [if_neg hfailure]
  by_cases hdir : (confirmationOf input).responseType = isrRecvTypeDirectory
  · rw [if_pos hdir, ensures_bind]
    refine ensures_sendGo hP ?_ fun hl v hv => ?_
    · rw [if_neg (by decide), ensures_bind]
      refine (h.directory input hlen hdir).mono fun r v hv => ?_
      rw [ensures_bind, ensures_netClose]
      exact ⟨hP.close _, hv⟩
    · rw [if_pos rfl]
      exact hmute v hv hl
  rw [if_neg hdir]
  by_cases hfile : (confirmationOf input).responseType = isrRecvTypeFile
  · rw [if_pos hfile, ensures_bind]
    refine ensures_sendGo hP ?_ fun hl v hv => ?_
    · rw [if_neg (by decide), ensures_bind]
      refine ensures_isrMkdirRecursive' (h.mkdir input hlen hfile) fun r s hs => ?_
      exact ensures_receiveInto hP _ _ (by decide) (by decide) (h.file input hlen hfile s hs)
    · rw [if_pos rfl]
      exact hmute v hv hl
  rw [if_neg hfile]
  exact ensures_complainClose hP (by decide) fun v hv => h.other input v hlen hfile hdir hv

/-! ## Sending a file

An upload has three parts: the look at the local file, the command with the first reply, and the
data with the second.  There is a structure of cases for each, and the rule for one part asks
for the cases of the next. -/

/-- The client has sent a SEND command and got a reply. -/
def repliedWorld (s : Sys) (input command : List UInt8) : World :=
  (asked s input command).received sizeofResponse

/-- What has to be shown about the end of `isr_cli_send_file`. -/
structure ResultCases (lossy eof : Bool) (A : Guard (NetOp OsOp) World)
    (Q : Int → World → Prop) (w : World) : Prop where
  /-- The result is received. -/
  recv : ∀ k, k < sizeofResponse → k ≤ w.rx.length →
    A (w.received k) (.recv (sizeofResponse - k) (sizeofResponse - k))
  /-- It does not come. -/
  short : ∀ k v, k < sizeofResponse → k ≤ w.rx.length → (lossy ∨ (eof ∧ k = w.rx.length)) →
    Complains (w.received k) v → Q (-1) v
  ok : sizeofResponse ≤ w.rx.length → w.rx.headD 0 = isrResultOk →
    Q 0 (w.received sizeofResponse)
  bad : sizeofResponse ≤ w.rx.length → w.rx.headD 0 ≠ isrResultOk → ∀ v,
    Complains (w.received sizeofResponse) v → Q (-1) v

theorem headD_take {n : Nat} (l : List UInt8) (hn : 0 < n) : (l.take n).headD 0 = l.headD 0 := by
  obtain ⟨m, rfl⟩ : ∃ m, n = m + 1 := ⟨n - 1, by omega⟩
  cases l <;> rfl

theorem ensures_readResult (hP : Permits A) {Q : Int → World → Prop}
    (h : ResultCases lossy eof A Q w) : Ensures (machine F lossy eof) A readResult Q w := by
  unfold readResult
  rw [ensures_bind]
  refine ensures_netRecvExact h.recv (fun hlen => ?_) fun k hk hkr hl => ?_
  · change Ensures _ _ (if (w.rx.take sizeofResponse).headD 0 = isrResultOk then _
      else if (w.rx.take sizeofResponse).headD 0 = isrResultChecksumBad then _ else _) _ _
    rw [headD_take _ (by decide)]
    split
    case isTrue hok => exact h.ok hlen hok
    case isFalse hbad =>
      split
      case isTrue => exact ensures_complainFail hP (by decide) (h.bad hlen hbad)
      case isFalse => exact ensures_complainFail hP (by decide) (h.bad hlen hbad)
  · exact ensures_complainFail hP (by decide) fun v hv => h.short k v hk hkr hl hv

/-- What has to be shown about the part of `isr_cli_send_file` that talks to the
server; `command` is the SEND command. -/
structure SessionCases (F : Faults) (lossy eof : Bool) (A : Guard (NetOp OsOp) World) (L : Lz4)
    (fuel : Nat) (fd : Fd) (command : List UInt8) (flags : UInt8) (blockSize : Nat)
    (Q : Int → World → Prop) (s : Sys) (input : List UInt8) : Prop where
  /-- The command does not get through. -/
  cut : lossy → ∀ data v, Complains (asked s input data) v → Q (-1) v
  /-- The reply is received. -/
  recv : ∀ k, k < sizeofResponse → k ≤ input.length →
    A ((asked s input command).received k) (.recv (sizeofResponse - k) (sizeofResponse - k))
  /-- It does not come. -/
  short : ∀ k v, k < sizeofResponse → k ≤ input.length → (lossy ∨ (eof ∧ k = input.length)) →
    Complains ((asked s input command).received k) v → Q (-1) v
  /-- The server refuses. -/
  rejected : sizeofResponse ≤ input.length → input.headD 0 = isrResultOtherFailure → ∀ v,
    Complains (repliedWorld s input command) v → Q (-1) v
  /-- The server accepts: stream the file, and read the result. -/
  data : sizeofResponse ≤ input.length → input.headD 0 ≠ isrResultOtherFailure →
    Ensures (machine F lossy eof) A (transmitFile L fuel fd flags blockSize)
      (fun c v => (c = -1 → ∀ u, Complains v u → Q (-1) u) ∧
        (c ≠ -1 → ResultCases lossy eof A Q v)) (repliedWorld s input command)

theorem ensures_sendFileSession (hP : Permits A) {L : Lz4} {fuel : Nat} {fd : Fd}
    {remotePath : List UInt8} {flags : UInt8} {blockSize n : Nat} {Q : Int → World → Prop}
    {s : Sys} {input : List UInt8}
    (h : SessionCases F lossy eof A L fuel fd (sendCommandBytes remotePath flags blockSize n)
      flags blockSize Q s input) :
    Ensures (machine F lossy eof) A
      (sendFileSession L fuel fd remotePath flags blockSize n) Q (Proc.start s input) := by
  unfold sendFileSession
  rw [ensures_bind]
  refine ensures_isrTransmitSendCommand hP ?_ (fun hl data => ?_)
  · rw [if_neg (by decide), ensures_bind]
    refine ensures_netRecvExact h.recv (fun hlen => ?_) fun k hk hkr hl => ?_
    · change Ensures _ _ (if (input.take sizeofResponse).headD 0 = isrResultOtherFailure then _
        else _) _ (repliedWorld s input (sendCommandBytes remotePath flags blockSize n))
      rw [headD_take _ (by decide)]
      split
      case isTrue hbad => exact ensures_complainFail hP (by decide) (h.rejected hlen hbad)
      case isFalse hok =>
        rw [ensures_bind]
        refine (h.data hlen hok).mono fun c v hv => ?_
        split
        case isTrue hc => exact ensures_complainFail hP (by decide) (hv.1 hc)
        case isFalse hc => exact ensures_readResult hP (hv.2 hc)
    · exact ensures_complainFail hP (by decide) fun v hv => h.short k v hk hkr hl hv
  · rw [if_pos rfl]
    exact ensures_complainFail hP (by decide) fun v hv => h.cut hl data v hv

/-- What has to be shown about `isr_cli_send_file`. -/
structure UploadCases (F : Faults) (lossy eof : Bool) (A : Guard (NetOp OsOp) World) (L : Lz4)
    (fuel : Nat) (remotePath localFile : List UInt8) (flags : UInt8) (blockSize : Nat)
    (Q : Int → World → Prop) (w : World) : Prop where
  stat : A w (.sys (.stat localFile))
  /-- There is no such file. -/
  missing : w.sys.StatStep localFile none → ∀ v, Complains w v → Q (-1) v
  openRead : A w (.sys (.openRead localFile))
  /-- It cannot be opened. -/
  unreadable : (w.sys.openRead localFile).1 = none ∨ F.opens → ∀ v, Complains w v → Q (-1) v
  connect : ∀ s, A (w.withSys s) .connect
  /-- There is no connection. -/
  refused : lossy → ∀ fd s v, w.sys.openRead localFile = (some fd, s) →
    Complains (w.withSys s) v → Q (-1) v
  /-- There is one. -/
  session : ∀ isDir size fd s input, w.sys.StatStep localFile (some (isDir, size)) →
    w.sys.openRead localFile = (some fd, s) →
    SessionCases F lossy eof A L fuel fd (sendCommandBytes remotePath flags blockSize size)
      flags blockSize Q s input

theorem ensures_isrCliSendFile (hP : Permits A) {L : Lz4} {fuel : Nat}
    {remotePath localFile : List UInt8} {flags : UInt8} {blockSize : Nat}
    {Q : Int → World → Prop}
    (h : UploadCases F lossy eof A L fuel remotePath localFile flags blockSize Q w) :
    Ensures (machine F lossy eof) A
      (isrCliSendFile L fuel remotePath localFile flags blockSize) Q w := by
  unfold isrCliSendFile
  rw [ensures_bind, ensures_stat]
  refine ⟨h.stat, fun r hr => ?_⟩
  rcases r with - | ⟨isDir, size⟩
  · exact ensures_complainFail hP (by decide) (h.missing hr)
  simp only
  rw [ensures_bind, ensures_openRead]
  refine ⟨h.openRead, ?_, fun hf => ?_⟩
  · cases hres : w.sys.openRead localFile with
    | mk result s =>
      cases result with
      | none =>
        have hsame : s = w.sys := by
          have hnone := Sys.openRead_none (congrArg Prod.fst hres)
          rw [hres] at hnone
          exact hnone
        rw [hsame, Proc.withSys_self]
        exact ensures_complainFail hP (by decide) (h.unreadable (Or.inl (congrArg Prod.fst hres)))
      | some fd =>
        simp only
        rw [ensures_bind, ensures_netConnect]
        refine ⟨h.connect s, fun input => ?_, fun hl => ?_⟩
        · simp only [Bool.true_eq_false, if_false, ensures_bind, ensures_close,
            ensures_netClose, ensures_pure]
          exact (ensures_sendFileSession hP (h.session isDir size fd s input hr hres)).mono
            fun r v hv => ⟨hP.closeFd _ _, hP.close _, hv⟩
        · simp only [if_true, ensures_bind]
          refine ensures_complain hP (by decide) fun v hv => ?_
          rw [ensures_close]
          exact ⟨hP.closeFd _ _, h.refused hl fd s v hres hv⟩
  · exact ensures_complainFail hP (by decide) (h.unreadable (Or.inr hf))

/-- What has to be shown about `isr_cli_send_mkdir`; `command` is its command. -/
structure MkdirCases (lossy eof : Bool) (A : Guard (NetOp OsOp) World) (command : List UInt8)
    (Q : Int → World → Prop) (w : World) : Prop where
  connect : A w .connect
  /-- There is no connection. -/
  refused : lossy → ∀ v, Complains w v → Q (-1) v
  /-- The command does not get through. -/
  cut : lossy → ∀ input data v, Complains (asked w.sys input data) v → Q (-1) v
  /-- The reply is received. -/
  recv : ∀ input k, k < sizeofResponse → k ≤ input.length →
    A ((asked w.sys input command).received k) (.recv (sizeofResponse - k) (sizeofResponse - k))
  /-- It does not come. -/
  short : ∀ input k v, k < sizeofResponse → k ≤ input.length →
    (lossy ∨ (eof ∧ k = input.length)) →
    Complains ((asked w.sys input command).received k) v → Q (-1) v
  ok : ∀ input, sizeofResponse ≤ input.length → input.headD 0 = isrResultOk →
    Q 0 (repliedWorld w.sys input command)
  bad : ∀ input v, sizeofResponse ≤ input.length → input.headD 0 ≠ isrResultOk →
    Complains (repliedWorld w.sys input command) v → Q (-1) v

theorem ensures_isrCliSendMkdir (hP : Permits A) {remotePath : List UInt8}
    {Q : Int → World → Prop}
    (h : MkdirCases lossy eof A (sendCommandBytes remotePath isrFlagCreateDirectory 0 0) Q w) :
    Ensures (machine F lossy eof) A (isrCliSendMkdir remotePath) Q w := by
  unfold isrCliSendMkdir
  rw [ensures_bind, ensures_netConnect]
  refine ⟨h.connect, fun input => ?_, fun hl => ?_⟩
  · rw [if_neg (by decide), ensures_bind]
    refine ensures_isrTransmitSendCommand hP ?_ (fun hl data => ?_)
    · rw [if_neg (by decide), ensures_bind]
      refine ensures_netRecvExact (h.recv input) (fun hlen => ?_) fun k hk hkr hl => ?_
      · simp only [ensures_bind, ensures_netClose]
        refine ⟨hP.close _, ?_⟩
        change Ensures _ _ (if (input.take sizeofResponse).headD 0 ≠ isrResultOk then _ else _) _
          (repliedWorld w.sys input (sendCommandBytes remotePath isrFlagCreateDirectory 0 0))
        rw [headD_take _ (by decide)]
        split
        case isTrue hbad =>
          exact ensures_complainFail hP (by decide) fun v hv => h.bad input v hlen hbad hv
        case isFalse hok => exact h.ok input hlen (not_not.mp hok)
      · exact ensures_complainClose hP (by decide) fun v hv => h.short input k v hk hkr hl hv
    · rw [if_pos rfl]
      exact ensures_complainClose hP (by decide) fun v hv => h.cut hl input data v hv
  · rw [if_pos rfl]
    exact ensures_complainFail hP (by decide) (h.refused hl)

end IsrTransfer
