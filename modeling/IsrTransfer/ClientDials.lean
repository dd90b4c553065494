import IsrTransfer.ClientRules
import IsrTransfer.Effect.Sessions

/-!
# An operation of the client connects once

`isr_cli_send_file`, `isr_cli_send_mkdir`, `isr_cli_recv` and `isr_cli_download_file` open one
connection, and before that they only look at their files (`Dials`).  What they do on the
connection is shown of each function by itself, the loops by induction on their bounds.

This is what `Effect.Sessions` needs to know of a client.  It is a property of the text of a
program, with no word about what the operations do, and there is one lemma for each function, in
the order in which they call each other.  An operation that does not come to its connection has
failed: `Dials (· ≠ 0)` says this too.
-/

namespace IsrTransfer

open Effect Posix

/-- The program does not connect. -/
abbrev Online {α : Type} (p : Prog α) : Prop := Only NetOp.Online p

section Rules

variable {α : Type} {p : Prog Int} {stop next : Prog α}

theorem online_sysCall {ρ : Type} (op : OsOp ρ) : Online (sysCall op) := only_perform trivial

theorem online_netClose : Online netClose := only_perform trivial

theorem online_outOfFuel : Online (outOfFuel : Prog α) :=
  .bind (online_sysCall _) fun e => e.elim

theorem online_complain (format : String) (args : List Arg) : Online (complain format args) :=
  online_sysCall _

/-- Go on, or stop if it has failed. -/
theorem online_or (hp : Online p) (hstop : Online stop) (hnext : Online next) :
    Online (p >>= fun r => if r = -1 then stop else next) := by
  refine .bind hp fun r => ?_
  split
  · exact hstop
  · exact hnext

theorem online_complainFail (format : String) (args : List Arg) (a : α) :
    Online (do
      complain format args
      return a) := .bind (online_complain _ _) fun _ => only_pure _

/-- Complain, close and stop. -/
theorem online_complainClose (format : String) (args : List Arg) (a : α) :
    Online (do
      complain format args
      netClose
      return a) :=
  .bind (online_complain _ _) fun _ => .bind online_netClose fun _ => only_pure _

end Rules

/-! ## Moving bytes -/

section Transport

variable (fuel : Nat)

theorem online_netRecvExactLoop (room left : Nat) (buf : List UInt8) :
    Online (netRecvExactLoop fuel room left buf) := by
  induction fuel generalizing room left buf with
  | zero =>
    cases left with
    | zero => exact only_pure _
    | succ left => exact online_outOfFuel
  | succ fuel ih =>
    cases left with
    | zero => exact only_pure _
    | succ left =>
      refine .bind (only_perform trivial) fun r => ?_
      rcases r with - | r
      · exact only_pure _
      · exact ih _ _ _

theorem online_netRecvExact (room len : Nat) : Online (netRecvExact room len) := by
  unfold netRecvExact
  exact online_netRecvExactLoop _ _ _ _

theorem online_netSendExactLoop (buf : List UInt8) : Online (netSendExactLoop fuel buf) := by
  induction fuel generalizing buf with
  | zero =>
    cases buf with
    | nil => exact only_pure _
    | cons b buf => exact online_outOfFuel
  | succ fuel ih =>
    cases buf with
    | nil => exact only_pure _
    | cons b buf =>
      refine .bind (only_perform trivial) fun r => ?_
      rcases r with - | r
      · exact only_pure _
      · exact ih _

theorem online_netSendExact (buf : List UInt8) : Online (netSendExact buf) := by
  unfold netSendExact
  exact online_netSendExactLoop _ _

theorem online_isrWriteAllLoop (fd : Fd) (buf : List UInt8) :
    Online (isrWriteAllLoop fd fuel buf) := by
  induction fuel generalizing buf with
  | zero =>
    cases buf with
    | nil => exact only_pure _
    | cons b buf => exact online_outOfFuel
  | succ fuel ih =>
    cases buf with
    | nil => exact only_pure _
    | cons b buf =>
      refine .bind (online_sysCall _) fun r => ?_
      rcases r with - | r
      · exact only_pure _
      · exact ih _

theorem online_isrWriteAll (fd : Fd) (buf : List UInt8) : Online (isrWriteAll fd buf) := by
  unfold isrWriteAll
  exact online_isrWriteAllLoop _ _ _

/-- Send something and go on, or stop if that fails. -/
theorem online_sendOr {α : Type} {buf : List UInt8} {stop next : Prog α} (hstop : Online stop)
    (hnext : Online next) : Online (netSendExact buf >>= fun r => if r = -1 then stop else next) :=
  online_or (online_netSendExact _) hstop hnext

end Transport

/-! ## Commands -/

theorem online_isrTransmitSendCommand (path : List UInt8) (flags : UInt8) (blockSize n : Nat) :
    Online (isrTransmitSendCommand path flags blockSize n) :=
  online_sendOr (only_pure _) <| online_sendOr (only_pure _) <|
    online_sendOr (only_pure _) (only_pure _)

theorem online_isrTransmitRecvCommand (path : List UInt8) (flags : UInt8) (blockSize : Nat) :
    Online (isrTransmitRecvCommand path flags blockSize) :=
  online_sendOr (only_pure _) <| online_sendOr (only_pure _) <|
    online_sendOr (only_pure _) (only_pure _)

/-! ## The data -/

section Stream

variable (L : Lz4) (fuel : Nat) (fd : Fd)

theorem online_isrTransmitFileUncompressedLoop (checksum : Nat) :
    Online (isrTransmitFileUncompressedLoop fd fuel checksum) := by
  induction fuel generalizing checksum with
  | zero => exact online_outOfFuel
  | succ fuel ih =>
    refine .bind (online_sysCall _) fun r => ?_
    rcases r with - | - | ⟨b, buffer⟩
    · exact only_pure _
    · exact online_sendOr (only_pure _) (only_pure _)
    · exact online_sendOr (only_pure _) (ih _)

theorem online_isrTransmitFileCompressedLoop (blockSize checksum : Nat) :
    Online (isrTransmitFileCompressedLoop L fd blockSize fuel checksum) := by
  induction fuel generalizing checksum with
  | zero => exact online_outOfFuel
  | succ fuel ih =>
    refine .bind (online_sysCall _) fun r => ?_
    rcases r with - | - | ⟨b, buffer⟩
    · exact online_sendOr (only_pure _) (only_pure _)
    · exact online_sendOr (only_pure _) (only_pure _)
    · simp only
      split
      · exact only_pure _
      · exact online_sendOr (only_pure _) (online_sendOr (only_pure _) (ih _))

theorem online_transmitFile (flags : UInt8) (blockSize : Nat) :
    Online (transmitFile L fuel fd flags blockSize) := by
  unfold transmitFile
  split
  · refine .bind (online_sysCall _) fun r => ?_
    split
    · exact only_pure _
    · refine .bind (online_sysCall _) fun r => ?_
      split
      · exact only_pure _
      · exact online_isrTransmitFileCompressedLoop _ _ _ _ _
  · exact online_isrTransmitFileUncompressedLoop _ _ _

theorem online_isrReceiveChecksum (checksum : Nat) : Online (isrReceiveChecksum checksum) := by
  refine .bind (online_netRecvExact _ _) fun r => ?_
  rcases r with - | wireChecksum
  · exact only_pure _
  · simp only
    split <;> exact only_pure _

theorem online_isrReceiveFileUncompressedLoop (remaining checksum : Nat) :
    Online (isrReceiveFileUncompressedLoop fd fuel remaining checksum) := by
  induction fuel generalizing remaining checksum with
  | zero =>
    cases remaining with
    | zero => exact online_isrReceiveChecksum _
    | succ remaining => exact online_outOfFuel
  | succ fuel ih =>
    cases remaining with
    | zero => exact online_isrReceiveChecksum _
    | succ remaining =>
      refine .bind (online_netRecvExact _ _) fun r => ?_
      rcases r with - | buffer
      · exact only_pure _
      · exact online_or (online_isrWriteAll _ _) (only_pure _) (ih _ _)

theorem online_isrReceiveFileCompressedLoop (blockSize remaining checksum : Nat) :
    Online (isrReceiveFileCompressedLoop L fd blockSize fuel remaining checksum) := by
  induction fuel generalizing remaining checksum with
  | zero =>
    cases remaining with
    | zero => exact online_isrReceiveChecksum _
    | succ remaining => exact online_outOfFuel
  | succ fuel ih =>
    cases remaining with
    | zero => exact online_isrReceiveChecksum _
    | succ remaining =>
      refine .bind (online_netRecvExact _ _) fun r => ?_
      rcases r with - | wireSize
      · exact only_pure _
      refine .bind (online_netRecvExact _ _) fun r => ?_
      rcases r with - | compressed
      · exact only_pure _
      simp only
      split
      · exact online_or (online_isrWriteAll _ _) (only_pure _) (ih _ _)
      · exact only_pure _

theorem online_receiveFile (flags : UInt8) (blockSize n : Nat) :
    Online (receiveFile L fuel fd flags blockSize n) := by
  unfold receiveFile
  split
  · refine .bind (online_sysCall _) fun r => ?_
    split
    · exact only_pure _
    · refine .bind (online_sysCall _) fun r => ?_
      split
      · exact only_pure _
      · exact online_isrReceiveFileCompressedLoop _ _ _ _ _ _
  · exact online_isrReceiveFileUncompressedLoop _ _ _ _

end Stream

/-! ## Directories -/

theorem online_isrMkdirRecursiveLoop (done rest : List UInt8) :
    Online (isrMkdirRecursiveLoop done rest) := by
  induction rest generalizing done with
  | nil =>
    refine .bind (online_sysCall _) fun r => ?_
    cases r <;> exact only_pure _
  | cons c rest ih =>
    unfold isrMkdirRecursiveLoop
    split
    · exact .bind (online_sysCall _) fun _ => ih _
    · exact ih _

theorem online_isrMkdirRecursive (path : List UInt8) : Online (isrMkdirRecursive path) :=
  online_isrMkdirRecursiveLoop _ _

theorem online_printEntries (fuel : Nat) (rest : List UInt8) : Online (printEntries fuel rest) := by
  induction fuel generalizing rest with
  | zero => exact only_pure _
  | succ fuel ih =>
    unfold printEntries
    split
    · exact only_pure _
    · simp only
      split
      · exact only_pure _
      · split <;> exact .bind (online_sysCall _) fun _ => ih _

theorem online_isrReceiveDirectoryListing (n : Nat) : Online (isrReceiveDirectoryListing n) := by
  refine .bind (.bind (online_sysCall _) fun r => ?_) fun r => ?_
  · split
    · exact only_pure _
    · refine .bind (online_netRecvExact _ _) fun r => ?_
      rcases r with - | buf
      · exact only_pure _
      refine .bind (online_netRecvExact _ _) fun r => ?_
      rcases r with - | wireChecksum
      · exact only_pure _
      · exact only_pure _
  · rcases r with - | ⟨buf, good⟩
    · exact only_pure _
    · simp only
      split
      · exact only_pure _
      · exact .bind (online_printEntries _ _) fun _ => only_pure _

/-! ## The operations -/

section Operations

variable (L : Lz4) (fuel : Nat) (remotePath : List UInt8) (flags : UInt8) (blockSize : Nat)

theorem online_readResult : Online readResult := by
  refine .bind (online_netRecvExact _ _) fun r => ?_
  rcases r with - | buf
  · exact online_complainFail _ _ _
  · simp only
    split
    · exact only_pure _
    · split <;> exact online_complainFail _ _ _

theorem online_sendFileSession (fd : Fd) (n : Nat) :
    Online (sendFileSession L fuel fd remotePath flags blockSize n) := by
  refine online_or (online_isrTransmitSendCommand _ _ _ _) (online_complainFail _ _ _) ?_
  refine .bind (online_netRecvExact _ _) fun r => ?_
  rcases r with - | buf
  · exact online_complainFail _ _ _
  · simp only
    split
    · exact online_complainFail _ _ _
    · exact online_or (online_transmitFile _ _ _ _ _) (online_complainFail _ _ _) online_readResult

theorem dials_isrCliSendFile (localFile : List UInt8) :
    Dials (· ≠ 0) (isrCliSendFile L fuel remotePath localFile flags blockSize) := by
  refine dials_sys fun r => ?_
  rcases r with - | ⟨isDir, size⟩
  · exact fun _ => (by decide : (-1 : Int) ≠ 0)
  refine dials_sys fun r => ?_
  rcases r with - | fd
  · exact fun _ => (by decide : (-1 : Int) ≠ 0)
  refine dials_connect ?_
  rw [if_neg (by decide)]
  exact .bind (online_sendFileSession _ _ _ _ _ _ _) fun _ =>
    .bind (online_sysCall _) fun _ => .bind online_netClose fun _ => only_pure _

theorem dials_isrCliSendMkdir : Dials (· ≠ 0) (isrCliSendMkdir remotePath) := by
  refine dials_connect ?_
  rw [if_neg (by decide)]
  refine online_or (online_isrTransmitSendCommand _ _ _ _) (online_complainClose _ _ _) ?_
  refine .bind (online_netRecvExact _ _) fun r => ?_
  rcases r with - | buf
  · exact online_complainClose _ _ _
  · refine .bind online_netClose fun _ => ?_
    split
    · exact online_complainFail _ _ _
    · exact only_pure _

/-- What begins with `recv_connect`. -/
theorem dials_recvConnect {f : Option IsrRecvConfirmation → Prog Int} (hf : ∀ r, Online (f r)) :
    Dials (· ≠ 0) (recvConnect remotePath flags blockSize >>= f) := by
  unfold recvConnect
  rw [bind_assoc]
  refine dials_connect ?_
  rw [if_neg (by decide)]
  refine .bind (online_or (online_isrTransmitRecvCommand _ _ _) (online_complainClose _ _ _) ?_) hf
  refine .bind (online_netRecvExact _ _) fun r => ?_
  rcases r with - | buf
  · exact online_complainClose _ _ _
  · exact only_pure _

theorem online_sendGo : Online sendGo := by
  refine .bind (only_perform trivial) fun r => ?_
  rcases r with - | n
  · exact online_complainFail _ _ _
  · exact only_pure _

theorem online_closeFail : Online (do
    netClose
    return (-1 : Int)) := .bind online_netClose fun _ => only_pure _

theorem online_reportReceived (result : Int) (failed mismatch : String) :
    Online (reportReceived result failed mismatch) := by
  unfold reportReceived
  split
  · exact online_complainFail _ _ _
  · split
    · exact online_complainFail _ _ _
    · exact only_pure _

theorem online_receiveInto (path : List UInt8) (n : Nat) (failed mismatch : String) :
    Online (receiveInto L fuel flags blockSize n path failed mismatch) := by
  refine .bind (online_sysCall _) fun r => ?_
  rcases r with - | fd
  · exact online_complainClose _ _ _
  · exact .bind (.bind (online_receiveFile _ _ _ _ _ _) fun _ => only_pure _) fun _ =>
      .bind (online_sysCall _) fun _ => .bind online_netClose fun _ => online_reportReceived _ _ _

theorem dials_isrCliRecv (localDir : List UInt8) :
    Dials (· ≠ 0) (isrCliRecv L fuel remotePath localDir flags blockSize) := by
  refine dials_recvConnect _ _ _ fun conf => ?_
  rcases conf with - | conf
  · exact only_pure _
  simp only
  split
  · exact online_complainClose _ _ _
  split
  · exact online_complainClose _ _ _
  split
  · refine online_or online_sendGo online_closeFail ?_
    exact .bind (online_isrReceiveDirectoryListing _) fun _ =>
      .bind online_netClose fun _ => only_pure _
  split
  · refine online_or online_sendGo online_closeFail ?_
    exact .bind (online_isrMkdirRecursive _) fun _ => online_receiveInto _ _ _ _ _ _ _ _
  · exact online_complainClose _ _ _

theorem dials_isrCliDownloadFile (localPath : List UInt8) :
    Dials (· ≠ 0) (isrCliDownloadFile L fuel remotePath localPath flags blockSize) := by
  refine dials_recvConnect _ _ _ fun conf => ?_
  rcases conf with - | conf
  · exact only_pure _
  simp only
  split
  · exact online_complainClose _ _ _
  split
  · exact online_complainClose _ _ _
  refine online_or online_sendGo online_closeFail ?_
  cases isrParentDir localPath isrPathMax with
  | none => exact online_receiveInto _ _ _ _ _ _ _ _
  | some parent =>
    exact .bind (online_isrMkdirRecursive _) fun _ => online_receiveInto _ _ _ _ _ _ _ _

end Operations

end IsrTransfer
