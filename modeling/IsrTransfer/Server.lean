import IsrTransfer.Listing
import IsrTransfer.Posix.Execute
import IsrTransfer.Stream

/-!
# The server's handlers (`lib/isr.c`, `main.c`)

`isr_receive_command` reads a command and hands it to the handler for its kind.
The accept loop of `main.c` serves one connection at a time: it runs
`isr_receive_command`, closes the connection and waits for the next one.

The root directory is a parameter, as is the bound `fuel` on the iterations of the
loops over a file.

A handler has many ways to end, most of them with a reply.  It is written here as the source has
it, but for pieces that the source repeats or nests: the refusals (`refuseSend`, `refuseRecv`), the
part that accepts a file (`acceptFile`), the part that serves one (`serveFile`), and the choice
between the two forms of a stream (`receiveFile`, `transmitFile`).  What `isr_receive_command`
returns decides nothing in the accept loop, and so it goes on after any request
(`ServerRun`).
-/

namespace IsrTransfer

open Effect Posix

/-- The outcome of receiving a file's data: `isr_receive_file_compressed` or
`isr_receive_file_uncompressed`, as the flag says. -/
def receiveFile (L : Lz4) (fuel : Nat) (fd : Fd) (flags : UInt8)
    (uncompressedBlockSize effectiveLength : Nat) : Prog Int :=
  if hasFlag flags isrFlagUseCompression then
    isrReceiveFileCompressed L fuel fd uncompressedBlockSize effectiveLength
  else isrReceiveFileUncompressed fd effectiveLength

/-- The outcome of transmitting a file's data: `isr_transmit_file_compressed` or
`isr_transmit_file_uncompressed`, as the flag says. -/
def transmitFile (L : Lz4) (fuel : Nat) (fd : Fd) (flags : UInt8)
    (uncompressedBlockSize : Nat) : Prog Int :=
  if hasFlag flags isrFlagUseCompression then
    isrTransmitFileCompressed L fuel fd uncompressedBlockSize
  else isrTransmitFileUncompressed fuel fd

/-- The end of `isr_receive_send_command`: report the result to the client. -/
def sendResult (result : Int) : Prog Int := do
  if result = -1 then
    let _ ← isrTransmitSendResult isrResultOtherFailure
    return -1
  else if result = -2 then
    let _ ← isrTransmitSendResult isrResultChecksumBad
    return -1
  else
    let _ ← isrTransmitSendResult isrResultOk
    return 0

/-- The part of `isr_receive_send_command` after the existence checks: make the
parent directories, accept, open the file and receive it. -/
def acceptFile (L : Lz4) (fuel : Nat) (header : IsrSendCommandHeader)
    (fullPath : List UInt8) (present : Bool) : Prog Int := do
  if let some parent := isrParentDir fullPath isrPathMax then
    let _ ← isrMkdirRecursive parent
  let respType := if present then isrSendResponseOverwriting else isrSendResponseCreating
  if (← isrTransmitSendResponse respType none) = -1 then return -1
  match ← isrOpenWrite fullPath with
  | none => return -1
  | some fd =>
    let result ← receiveFile L fuel fd header.flags header.uncompressedBlockSize
      header.effectiveLength
    isrClose fd
    sendResult result

/-- Refuse a SEND with a message. -/
def refuseSend (message : String) : Prog Int := do
  let _ ← isrTransmitSendResponse isrResultOtherFailure (some (bytesOf message))
  return -1

/-- `isr_receive_send_command`. -/
def isrReceiveSendCommand (L : Lz4) (fuel : Nat) (root : List UInt8)
    (header : IsrSendCommandHeader) (path : List UInt8) : Prog Int := do
  if isrValidatePath path = -1 then
    refuseSend "Invalid path"
  else
    match ← isrResolvePath root path isrPathMax with
    | none => refuseSend "Path resolution failed"
    | some fullPath =>
      if hasFlag header.flags isrFlagCreateDirectory then
        if (← isrMkdirRecursive fullPath) = -1 then
          refuseSend "Failed to create directory"
        else
          let _ ← isrTransmitSendResponse isrResultOk none
          return 0
      else
        match ← isrStat fullPath with
        | none => acceptFile L fuel header fullPath false
        | some (isDir, _) =>
          if isDir then
            refuseSend "Path is a directory"
          else if hasFlag header.flags isrFlagOverwrite = false then
            refuseSend "File exists, overwrite not set"
          else acceptFile L fuel header fullPath true

def refuseRecv : Prog Int := do
  let _ ← isrSendRecvConfirmation isrResultOtherFailure 0
  return -1

/-- The part of `isr_receive_recv_command` that serves a regular file. -/
def serveFile (L : Lz4) (fuel : Nat) (header : IsrRecvCommandHeader)
    (fullPath : List UInt8) (fileSize : Nat) : Prog Int := do
  if (← isrSendRecvConfirmation isrRecvTypeFile fileSize) = -1 then return -1
  match ← netRecvExact 1 1 with
  | none => return -1
  | some go =>
    if go = [isrRecvUnable] then return 0
    match ← isrOpenRead fullPath with
    | none => return -1
    | some fd =>
      let result ← transmitFile L fuel fd header.flags header.uncompressedBlockSize
      isrClose fd
      return if 0 ≤ result then 0 else -1

/-- `isr_receive_recv_command`. -/
def isrReceiveRecvCommand (L : Lz4) (fuel : Nat) (root : List UInt8)
    (header : IsrRecvCommandHeader) (path : List UInt8) : Prog Int := do
  if isrValidatePath path = -1 then refuseRecv
  else
    match ← isrResolvePath root path isrPathMax with
    | none => refuseRecv
    | some fullPath =>
      match ← isrStat fullPath with
      | none =>
        let _ ← isrSendRecvConfirmation isrRecvTypeNotFound 0
        return 0
      | some (isDir, fileSize) =>
        if isDir then isrTransmitRecvDirectoryListing fullPath
        else serveFile L fuel header fullPath fileSize

/-- `isr_receive_command`. -/
def isrReceiveCommand (L : Lz4) (fuel : Nat) (root : List UInt8) : Prog Int := do
  match ← netRecvExact 1 1 with
  | none => return -1
  | some cmd =>
    if cmd = [isrCommandSend] then
      match ← netRecvExact sizeofSendCommandHeader sizeofSendCommandHeader with
      | none => return -1
      | some buf =>
        let header := IsrSendCommandHeader.ofBytes buf
        if isrPathMax ≤ header.pathLength then return -1
        match ← netRecvExact isrPathMax header.pathLength with
        | none => return -1
        | some path => isrReceiveSendCommand L fuel root header (cstr path)
    else if cmd = [isrCommandRecv] then
      match ← netRecvExact sizeofRecvCommandHeader sizeofRecvCommandHeader with
      | none => return -1
      | some buf =>
        let header := IsrRecvCommandHeader.ofBytes buf
        if isrPathMax ≤ header.pathLength then return -1
        match ← netRecvExact isrPathMax header.pathLength with
        | none => return -1
        | some path => isrReceiveRecvCommand L fuel root header (cstr path)
    else
      sysCall (.eprint ⟨"Unknown command type: 0x%02x\n", [.num (ofBe cmd)]⟩)
      return -1

/-- One turn of the accept loop: serve a connection, and close it. -/
def serveConnection (L : Lz4) (fuel : Nat) (root : List UInt8) : Prog Int := do
  let result ← isrReceiveCommand L fuel root
  netClose
  return result

/-- The argument of `cmd_serve` without separators at its end. -/
def stripSeparators (directory : List UInt8) : List UInt8 :=
  let dir := strncpy directory isrPathMax
  dir.take 1 ++ (dir.drop 1).rdropWhile isSeparator

/-- How `cmd_serve` finds the root: it has to be a directory, and its real path is
kept by `isr_set_server_root`. -/
def cmdServeRoot (directory : List UInt8) : Prog (Option (List UInt8)) := do
  let directory := stripSeparators directory
  match ← isrStat directory with
  | none =>
    sysCall (.eprint ⟨"Error: '%s' does not exist\n", [.str directory]⟩)
    return none
  | some (isDir, _) =>
    if isDir = false then
      sysCall (.eprint ⟨"Error: '%s' is not a directory\n", [.str directory]⟩)
      return none
    match ← sysCall (.realpath directory) with
    | none =>
      sysCall (.eprint ⟨"Error: could not resolve path '%s'\n", [.str directory]⟩)
      return none
    | some root => return some (strncpy root isrPathMax)

/-- The accept loop: one connection after the other, each with what the client sends
on it.  Any of them may break off at any point. -/
inductive ServerRun (F : Faults) (L : Lz4) (root : List UInt8) :
    Sys → List (List UInt8) → Sys → Prop where
  | nil (s : Sys) : ServerRun F L root s [] s
  | cons {s s' : Sys} {input : List UInt8} {inputs : List (List UInt8)} {fuel : Nat} {r : Int}
      {v : World} :
      Reaches (machine F true true) (serveConnection L fuel root) (Proc.start s input)
        (.ret r) v →
      ServerRun F L root v.sys inputs s' → ServerRun F L root s (input :: inputs) s'

/-- The accept loop, computed; no connection breaks off. -/
def serveAll (L : Lz4) (fuel : Nat) (root : List UInt8) : Sys → List (List UInt8) → Option Sys
  | s, [] => some s
  | s, input :: inputs =>
    match execute (fun _ w op => machineAnswer [] w op) (serveConnection L fuel root)
        (Proc.start s input) with
    | some (_, v) => serveAll L fuel root v.sys inputs
    | none => none

theorem serverRun_of_serveAll {F : Faults} {L : Lz4} {fuel : Nat} {root : List UInt8}
    {s s' : Sys} {inputs : List (List UInt8)} (h : serveAll L fuel root s inputs = some s') :
    ServerRun F L root s inputs s' := by
  induction inputs generalizing s with
  | nil =>
    obtain rfl : s = s' := Option.some.inj h
    exact .nil s
  | cons input inputs ih =>
    rw [serveAll] at h
    cases hrun : execute (fun _ w op => machineAnswer [] w op) (serveConnection L fuel root)
        (Proc.start s input) with
    | none =>
      rw [hrun] at h
      exact absurd h (by simp)
    | some av =>
      rw [hrun] at h
      exact .cons (reaches_of_execute (fun _ _ _ _ _ => machine_of_answer) hrun) (ih h)

end IsrTransfer
