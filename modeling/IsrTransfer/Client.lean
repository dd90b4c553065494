import IsrTransfer.Server

/-!
# The client's operations (`lib/isr-cli.c`)

Every operation opens a connection, or several one after the other.  Host and port
are the environment's business and are left out; so are the lines of progress on
standard output.  The lines on standard error are kept: they are how a recursive
operation reports which of its entries failed.

The recursions over directory trees are bounded by `depth`.  A server can name directories in
directories for as long as it likes, and a local tree can have links to directories above; so the
recursions of the source have no bound, and whether they come to an end is a question of its own
(`DownloadDepth`).

At depth 0 a program spins: it does nothing from there on and has no result.  So what is said of
runs that have ended is not affected by the bound, as long as the bound is arbitrary.
-/

namespace IsrTransfer

open Effect Posix

/-- A line on standard error. -/
def complain (format : String) (args : List Arg) : Prog Unit :=
  sysCall (.eprint ⟨format, args⟩)

/-- `recv_connect`: connect, send a RECV and read the confirmation; `none` is
`NET_INVALID_SOCKET`. -/
def recvConnect (remotePath : List UInt8) (flags : UInt8) (blockSize : Nat) :
    Prog (Option IsrRecvConfirmation) := do
  if (← netConnect) = false then
    complain "Failed to connect to %s:%s\n" []
    return none
  if (← isrTransmitRecvCommand remotePath flags blockSize) = -1 then
    complain "Failed to send receive command\n" []
    netClose
    return none
  match ← netRecvExact sizeofRecvConfirmation sizeofRecvConfirmation with
  | none =>
    complain "Failed to read server response\n" []
    netClose
    return none
  | some buf => return some (IsrRecvConfirmation.ofBytes buf)

/-- `send_go`; it sends the byte with `net_send`, not `net_send_exact`. -/
def sendGo : Prog Int := do
  match ← netSend [isrRecvGo] with
  | none =>
    complain "Failed to send confirmation\n" []
    return -1
  | some _ => return 0

/-- `receive_file_data`; its result is an `int`, and the receiver's an `int64_t`. -/
def receiveFileData (L : Lz4) (fuel : Nat) (fd : Fd) (flags : UInt8)
    (blockSize effectiveLength : Nat) : Prog Int := do
  let result ← receiveFile L fuel fd flags blockSize effectiveLength
  return if 0 ≤ result then 0 else narrowed result

/-- The end of `isr_cli_send_file`: what the server's result says. -/
def readResult : Prog Int := do
  match ← netRecvExact sizeofResponse sizeofResponse with
  | none =>
    complain "Failed to read server result\n" []
    return -1
  | some buf =>
    let result := IsrResponse.ofBytes buf
    if result.responseType = isrResultOk then return 0
    else if result.responseType = isrResultChecksumBad then
      complain "Checksum mismatch!\n" []
      return -1
    else
      complain "Server error: %s\n" [.str (cstr result.responseData)]
      return -1

/-- The part of `isr_cli_send_file` between connecting and closing. -/
def sendFileSession (L : Lz4) (fuel : Nat) (fd : Fd) (remotePath : List UInt8)
    (flags : UInt8) (blockSize fileSize : Nat) : Prog Int := do
  if (← isrTransmitSendCommand remotePath flags blockSize fileSize) = -1 then
    complain "Failed to send command\n" []
    return -1
  match ← netRecvExact sizeofResponse sizeofResponse with
  | none =>
    complain "Failed to read server response\n" []
    return -1
  | some buf =>
    let response := IsrResponse.ofBytes buf
    if response.responseType = isrResultOtherFailure then
      complain "Server error: %s\n" [.str (cstr response.responseData)]
      return -1
    let checksum ← transmitFile L fuel fd flags blockSize
    if checksum = -1 then
      complain "Failed to transmit file data\n" []
      return -1
    readResult

/-- `isr_cli_send_file`. -/
def isrCliSendFile (L : Lz4) (fuel : Nat) (remotePath localFile : List UInt8)
    (flags : UInt8) (blockSize : Nat) : Prog Int := do
  match ← isrStat localFile with
  | none =>
    complain "Error: cannot stat '%s'\n" [.str localFile]
    return -1
  | some (_, fileSize) =>
    match ← isrOpenRead localFile with
    | none =>
      complain "Error: cannot open '%s'\n" [.str localFile]
      return -1
    | some fd =>
      if (← netConnect) = false then
        complain "Failed to connect to %s:%s\n" []
        isrClose fd
        return -1
      let ret ← sendFileSession L fuel fd remotePath flags blockSize fileSize
      isrClose fd
      netClose
      return ret

def isrCliSendMkdir (remotePath : List UInt8) : Prog Int := do
  if (← netConnect) = false then
    complain "Failed to connect to %s:%s\n" []
    return -1
  if (← isrTransmitSendCommand remotePath isrFlagCreateDirectory 0 0) = -1 then
    complain "Failed to send mkdir command\n" []
    netClose
    return -1
  match ← netRecvExact sizeofResponse sizeofResponse with
  | none =>
    complain "Failed to read server response\n" []
    netClose
    return -1
  | some buf =>
    let response := IsrResponse.ofBytes buf
    netClose
    if response.responseType ≠ isrResultOk then
      complain "Server error creating directory '%s': %s\n"
        [.str remotePath, .str (cstr response.responseData)]
      return -1
    return 0

/-- Combine the result so far with that of one more entry: `result = -1` if the
entry failed. -/
def noteFailure (ret : Int) (format : String) (path : List UInt8) (result : Int) :
    Prog Int := do
  if ret ≠ 0 then
    complain format [.str path]
    return -1
  return result

/-- The loop of `isr_cli_send_directory` over the entries of the directory;
`sendDirectory` is the recursive call. -/
def sendEntriesOf (L : Lz4) (fuel : Nat)
    (sendDirectory : (remotePath localDir : List UInt8) → Prog Int)
    (remotePath localDir : List UInt8) (flags : UInt8) (blockSize : Nat) :
    (names : List Name) → (result : Int) → Prog Int
  | [], result => return result
  | name :: names, result => do
    if name = dot ∨ name = dotdot then
      sendEntriesOf L fuel sendDirectory remotePath localDir flags blockSize names result
    else
      let localEntry := snprintfPath localDir name isrPathMax
      let remoteEntry := snprintfPath remotePath name isrPathMax
      let result ←
        match ← isrStat localEntry with
        | none => do
          complain "Error: cannot stat '%s'\n" [.str localEntry]
          pure (-1)
        | some (isDir, _) =>
          if isDir then do
            let ret ← sendDirectory remoteEntry localEntry
            noteFailure ret "Failed to upload directory: %s\n" localEntry result
          else do
            let ret ← isrCliSendFile L fuel remoteEntry localEntry flags blockSize
            noteFailure ret "Failed to upload file: %s\n" localEntry result
      sendEntriesOf L fuel sendDirectory remotePath localDir flags blockSize names result

/-- `isr_cli_send_directory`. -/
def isrCliSendDirectory (L : Lz4) (fuel : Nat) (flags : UInt8) (blockSize : Nat) :
    (depth : Nat) → (remotePath localDir : List UInt8) → Prog Int
  | 0, _, _ => outOfFuel
  | depth + 1, remotePath, localDir => do
    if (← isrCliSendMkdir remotePath) ≠ 0 then
      complain "Failed to create remote directory: %s\n" [.str remotePath]
      return -1
    match ← sysCall (.opendir localDir) with
    | none =>
      complain "Error: cannot open directory '%s'\n" [.str localDir]
      return -1
    | some names =>
      sendEntriesOf L fuel (isrCliSendDirectory L fuel flags blockSize depth) remotePath
        localDir flags blockSize names 0

/-- What `strrchr(path, '/')` and one byte further gives, or else the whole path. -/
def basename (path : List UInt8) : List UInt8 :=
  match strrchr slash path with
  | some i => path.drop (i + 1)
  | none => path

/-- The ends of `isr_cli_recv` and `isr_cli_download_file` say in different words
how receiving the data went. -/
def reportReceived (result : Int) (failed mismatch : String) : Prog Int := do
  if result = -1 then
    complain failed []
    return -1
  else if result = -2 then
    complain mismatch []
    return -1
  else return 0

/-- `isr_cli_recv`. -/
def isrCliRecv (L : Lz4) (fuel : Nat) (remotePath localDir : List UInt8) (flags : UInt8)
    (blockSize : Nat) : Prog Int := do
  match ← recvConnect remotePath flags blockSize with
  | none => return -1
  | some conf =>
    if conf.responseType = isrRecvTypeNotFound then
      complain "Path not found on server.\n" []
      netClose
      return -1
    else if conf.responseType = isrResultOtherFailure then
      complain "Server error.\n" []
      netClose
      return -1
    else if conf.responseType = isrRecvTypeDirectory then
      if (← sendGo) = -1 then
        netClose
        return -1
      let result ← isrReceiveDirectoryListing conf.effectiveLength
      netClose
      return if result = 0 then 0 else -1
    else if conf.responseType = isrRecvTypeFile then
      if (← sendGo) = -1 then
        netClose
        return -1
      let outPath := snprintfPath localDir (basename remotePath) isrPathMax
      let _ ← isrMkdirRecursive localDir
      match ← isrOpenWrite outPath with
      | none =>
        complain "Error: cannot open '%s' for writing\n" [.str outPath]
        netClose
        return -1
      | some fd =>
        let result ← receiveFileData L fuel fd flags blockSize conf.effectiveLength
        isrClose fd
        netClose
        reportReceived result "Failed to receive file.\n" "Checksum mismatch!\n"
    else
      complain "Unexpected response type: 0x%02x\n" [.num conf.responseType.toNat]
      netClose
      return -1

/-- `isr_cli_download_file`. -/
def isrCliDownloadFile (L : Lz4) (fuel : Nat) (remotePath localPath : List UInt8)
    (flags : UInt8) (blockSize : Nat) : Prog Int := do
  match ← recvConnect remotePath flags blockSize with
  | none => return -1
  | some conf =>
    if conf.responseType = isrRecvTypeNotFound then
      complain "  File not found: %s\n" [.str remotePath]
      netClose
      return -1
    else if conf.responseType ≠ isrRecvTypeFile then
      complain "  Expected file but got type 0x%02x for %s\n"
        [.num conf.responseType.toNat, .str remotePath]
      netClose
      return -1
    else
      if (← sendGo) = -1 then
        netClose
        return -1
      if let some parent := isrParentDir localPath isrPathMax then
        let _ ← isrMkdirRecursive parent
      match ← isrOpenWrite localPath with
      | none =>
        complain "Error: cannot open '%s' for writing\n" [.str localPath]
        netClose
        return -1
      | some fd =>
        let result ← receiveFileData L fuel fd flags blockSize conf.effectiveLength
        isrClose fd
        netClose
        reportReceived result "  Failed to receive file.\n" "  Checksum mismatch!\n"

/-- The loop of `isr_cli_download_directory` over the entries of the listing;
`downloadDirectory` is the recursive call. -/
def downloadEntries (L : Lz4) (fuel : Nat)
    (downloadDirectory : (remotePath localDir : List UInt8) → Prog Int)
    (remotePath localDir : List UInt8) (flags : UInt8) (blockSize : Nat) :
    (entries : List IsrCliDirEntry) → (result : Int) → Prog Int
  | [], result => return result
  | e :: entries, result => do
    let remoteEntryPath := snprintfPath remotePath e.name isrPathMax
    let localEntryPath := snprintfPath localDir e.name isrPathMax
    let result ←
      if e.isDirectory ≠ 0 then do
        let ret ← downloadDirectory remoteEntryPath localEntryPath
        noteFailure ret "Failed to download directory: %s\n" remoteEntryPath result
      else do
        let ret ← isrCliDownloadFile L fuel remoteEntryPath localEntryPath flags blockSize
        noteFailure ret "Failed to download file: %s\n" remoteEntryPath result
    downloadEntries L fuel downloadDirectory remotePath localDir flags blockSize entries
      result

/-- `isr_cli_download_directory`. -/
def isrCliDownloadDirectory (L : Lz4) (fuel : Nat) (flags : UInt8) (blockSize : Nat) :
    (depth : Nat) → (remotePath localDir : List UInt8) → Prog Int
  | 0, _, _ => outOfFuel
  | depth + 1, remotePath, localDir => do
    match ← recvConnect remotePath flags blockSize with
    | none => return -1
    | some conf =>
      if conf.responseType = isrRecvTypeNotFound then
        complain "Directory not found on server: %s\n" [.str remotePath]
        netClose
        return -1
      else if conf.responseType = isrResultOtherFailure then
        complain "Server error for path: %s\n" [.str remotePath]
        netClose
        return -1
      else if conf.responseType = isrRecvTypeFile then
        netClose
        isrCliDownloadFile L fuel remotePath
          (snprintfPath localDir (basename remotePath) isrPathMax) flags blockSize
      else if conf.responseType ≠ isrRecvTypeDirectory then
        complain "Unexpected response type: 0x%02x\n" [.num conf.responseType.toNat]
        netClose
        return -1
      else
        if (← sendGo) = -1 then
          netClose
          return -1
        let listing ← recvVerifiedListing conf.effectiveLength
        netClose
        match listing with
        | none => return -1
        | some buf =>
          let (entries, entryCount) ← isrCliParseDirectoryListing buf
          if entries = none ∧ entryCount ≠ 0 then
            complain "Failed to parse directory listing\n" []
            return -1
          let _ ← isrMkdirRecursive localDir
          downloadEntries L fuel (isrCliDownloadDirectory L fuel flags blockSize depth)
            remotePath localDir flags blockSize (entries.getD []) 0

end IsrTransfer
