import IsrTransfer.CommandRules
import IsrTransfer.ListingRules
import IsrTransfer.Posix.Files
import IsrTransfer.Resolution
import IsrTransfer.Server

/-!
# What the handlers do

One rule for each handler, with one case for each way the handler can go.  The
cases say what has been sent, how the system has changed and what is returned; the
transfer of the data itself is left as an obligation, to be met with the rules for
the four loops.

A rule has the form that its caller needs: to show that a handler keeps to a guard `A` and ends
in `Q`, show the fields of a structure (`AcceptCases`, `SendCases`, `ServeCases`,
`CommandCases`).  A field is a way to go, with what is known there.  So what the server cannot do
is shown without a look at the text of a handler: it is a choice of `A` and `Q`, with an argument
for each field.  The connection may break at any point; so of a reply that is sent a beginning may
be all that arrives (`Sends`).

Sending, closing, printing, allocating, and the use of files that are open are permitted by every
guard here (`Permits`).  What is to be justified are the operations on paths, receiving, and the
use of a loop beyond its bound.
-/

namespace IsrTransfer

open Effect Posix

variable {F : Faults} {lossy eof : Bool} {A : Guard (NetOp OsOp) World} {w : World}

/-- `v` is `w` with `data` sent; on a lossy connection perhaps only a beginning. -/
def Sends (lossy : Bool) (w : World) (data : List UInt8) (v : World) : Prop :=
  v = w.sent data ∨ (lossy ∧ ∃ k, k < data.length ∧ v = w.sent (data.take k))

theorem Sends.sys {data : List UInt8} {v : World} (h : Sends lossy w data v) :
    v.sys = w.sys := by
  rcases h with rfl | ⟨-, k, -, rfl⟩ <;> rfl

/-- The reply that refuses a SEND. -/
def refusal (message : String) : List UInt8 :=
  (sendResponse isrResultOtherFailure (some (bytesOf message))).bytes

theorem ensures_refuseSend (hP : Permits A) {message : String} {Q : Int → World → Prop}
    (hQ : ∀ v, Sends lossy w (refusal message) v → Q (-1) v) :
    Ensures (machine F lossy eof) A (refuseSend message) Q w := by
  unfold refuseSend
  rw [ensures_bind]
  refine ensures_isrTransmitSendResponse hP (hQ _ (Or.inl rfl)) (fun hl k hk => ?_)
  exact hQ _ (Or.inr ⟨hl, k, by rw [refusal, length_sendResponse]; exact hk, rfl⟩)

/-- The reply at the end of a SEND. -/
def resultBytes (result : Int) : List UInt8 :=
  (sendResponse (if result = -1 then isrResultOtherFailure
    else if result = -2 then isrResultChecksumBad else isrResultOk) none).bytes

/-- What the handler returns after that. -/
def resultStatus (result : Int) : Int := if result = -1 ∨ result = -2 then -1 else 0

theorem ensures_sendResult (hP : Permits A) {result : Int} {Q : Int → World → Prop}
    (hQ : ∀ v, Sends lossy w (resultBytes result) v → Q (resultStatus result) v) :
    Ensures (machine F lossy eof) A (sendResult result) Q w := by
  have hsend : ∀ t status, resultBytes result = (sendResponse t none).bytes →
      resultStatus result = status →
      Ensures (machine F lossy eof) A (do
        let _ ← isrTransmitSendResult t
        return status) Q w := by
    rintro t status ht rfl
    rw [ensures_bind]
    rw [ht] at hQ
    refine ensures_isrTransmitSendResponse hP (hQ _ (Or.inl rfl)) (fun hl k hk => ?_)
    exact hQ _ (Or.inr ⟨hl, k, by rw [length_sendResponse]; exact hk, rfl⟩)
  unfold sendResult
  split
  case isTrue h =>
    have hbytes : resultBytes result = (sendResponse isrResultOtherFailure none).bytes := by
      rw [resultBytes, if_pos h]
    have hstatus : resultStatus result = -1 := by rw [resultStatus, if_pos (Or.inl h)]
    exact hsend isrResultOtherFailure (-1) hbytes hstatus
  case isFalse h =>
    split
    case isTrue h' =>
      have hbytes : resultBytes result = (sendResponse isrResultChecksumBad none).bytes := by
        rw [resultBytes, if_neg h, if_pos h']
      have hstatus : resultStatus result = -1 := by rw [resultStatus, if_pos (Or.inr h')]
      exact hsend isrResultChecksumBad (-1) hbytes hstatus
    case isFalse h' =>
      have hbytes : resultBytes result = (sendResponse isrResultOk none).bytes := by
        rw [resultBytes, if_neg h, if_neg h']
      have hstatus : resultStatus result = 0 := by
        rw [resultStatus, if_neg (not_or.mpr ⟨h, h'⟩)]
      exact hsend isrResultOk 0 hbytes hstatus

/-! ## The data, in outline

For what does not depend on the data: a receiver writes something to the file that
was opened, a sender moves the position in it.  Both go round their loops no more often
than there is something to receive or to read. -/

/-- A receiver of `n` bytes that has got `data` needs more. -/
def Incomplete (L : Lz4) (flags : UInt8) (blockSize n : Nat) (data : List UInt8) : Prop :=
  if hasFlag flags isrFlagUseCompression then
    ∃ outs rem k, Blocks L blockSize n data outs rem k ∧
      ((rem = 0 ∧ data.length < k + 8) ∨
        (rem ≠ 0 ∧ data.length < k + (4 + blockLength (data.drop k))))
  else data.length < n + 8

theorem ensures_receiveFile_outline (hP : Permits A) {L : Lz4} {fuel : Nat} {fd : Fd}
    {flags : UInt8} {blockSize n : Nat} {Q : Int → World → Prop}
    (hrecv : ∀ data k room len, 0 < len →
      ((taken w fd data k).rx = [] → Incomplete L flags blockSize n w.rx) →
      A (taken w fd data k) (.recv room len))
    (hspin : fuel ≤ w.rx.length → ∀ v, A v (.sys .spin))
    (hQ : ∀ r data k, Q r (taken w fd data k)) :
    Ensures (machine F lossy eof) A (receiveFile L fuel fd flags blockSize n) Q w := by
  have hsame : ∀ r, Q r w := by
    intro r
    have h := hQ r [] 0
    rwa [taken_nil, Proc.received_zero] at h
  -- a receiver waits when everything has been taken
  have hwait : ∀ {data k}, k ≤ w.rx.length → (taken w fd data k).rx = [] → k = w.rx.length := by
    intro data k hk hnil
    rw [taken_rx, List.drop_eq_nil_iff] at hnil
    omega
  unfold Incomplete at hrecv
  unfold receiveFile
  split
  case isTrue hflag =>
    rw [if_pos hflag] at hrecv
    unfold isrReceiveFileCompressed
    rw [ensures_bind, ensures_malloc]
    refine ⟨hP.malloc _ _, ?_, fun _ => hsame _⟩
    rw [if_neg (by decide), ensures_bind, ensures_malloc]
    refine ⟨hP.malloc _ _, ?_, fun _ => hsame _⟩
    rw [if_neg (by decide)]
    change Ensures _ _ (isrReceiveFileCompressedLoop L fd blockSize fuel n (checksumOf [])) Q w
    refine ensures_isrReceiveFileCompressedLoop hP fuel ?_
    constructor
    · intro outs rem k hb _ hfuel
      have hle := hb.length_le
      exact hspin (by omega) _
    · intro outs rem k i hb hrem hi hk
      refine hrecv _ _ _ _ (by omega) fun hnil => ⟨outs, rem, k, hb, Or.inr ⟨hrem, ?_⟩⟩
      have hall := hwait hk hnil
      omega
    · intro outs rem k i hb hrem hi hk
      refine hrecv _ _ _ _ (by omega) fun hnil => ⟨outs, rem, k, hb, Or.inr ⟨hrem, ?_⟩⟩
      have hall := hwait hk hnil
      omega
    · intro outs k i hb hi hk
      refine hrecv _ _ _ _ (by omega) fun hnil => ⟨outs, 0, k, hb, Or.inl ⟨rfl, ?_⟩⟩
      have hall := hwait hk hnil
      omega
    · exact fun _ _ _ _ => hQ _ _ _
    · exact fun _ _ _ _ _ _ _ => hQ _ _ _
    · exact fun _ _ _ _ _ _ _ _ _ _ => hQ _ _ _
    · exact fun _ _ _ _ _ _ _ _ _ _ _ => hQ _ _ _
  case isFalse hflag =>
    rw [if_neg hflag] at hrecv
    change Ensures _ _ (isrReceiveFileUncompressedLoop fd n n (checksumOf [])) Q w
    refine ensures_isrReceiveFileUncompressedLoop hP n (Nat.le_refl n) ?_
    constructor
    · intro m k room len _ _ hk h0 _ hsum
      refine hrecv _ _ _ _ h0 fun hnil => ?_
      have hall := hwait hk hnil
      omega
    · exact fun _ => hQ _ _ _
    · exact fun _ _ _ _ _ _ _ => hQ _ _ _

theorem ensures_transmitFile_outline (hP : Permits A) {L : Lz4} {fuel : Nat} {fd : Fd}
    {flags : UInt8} {blockSize : Nat} {Q : Int → World → Prop}
    (hspin : fuel ≤ readsLeft w.sys fd → ∀ v, A v (.sys .spin))
    (hQ : ∀ r s data, w.sys.OnlyRead s → Q r ((w.withSys s).sent data)) :
    Ensures (machine F lossy eof) A (transmitFile L fuel fd flags blockSize) Q w := by
  have hsame : ∀ r, Q r w := by
    intro r
    have h := hQ r w.sys [] (Sys.OnlyRead.refl _)
    rwa [Proc.withSys_self, Proc.sent_nil] at h
  unfold transmitFile
  split
  · unfold isrTransmitFileCompressed
    rw [ensures_bind, ensures_malloc]
    refine ⟨hP.malloc _ _, ?_, fun _ => hsame _⟩
    rw [if_neg (by decide), ensures_bind, ensures_malloc]
    refine ⟨hP.malloc _ _, ?_, fun _ => hsame _⟩
    rw [if_neg (by decide)]
    change Ensures _ _ (isrTransmitFileCompressedLoop L fd blockSize fuel (checksumOf [])) Q w
    refine ensures_isrTransmitFileCompressedLoop L hP fuel ?_ ?_ ?_ ?_ ?_
    · exact fun _ _ hrun _ hlen => hspin (hlen.symm.le.trans hrun.length_le_readsLeft) _
    · exact fun _ _ _ hrun _ he => hQ _ _ _ (hrun.onlyRead.trans (onlyRead_of_stop he))
    · exact fun _ _ _ hrun _ _ => hQ _ _ _ hrun.onlyRead
    · exact fun _ _ _ _ hrun _ => hQ _ _ _ hrun.onlyRead
    · exact fun _ _ _ _ _ hrun _ he => hQ _ _ _ (hrun.onlyRead.trans (onlyRead_of_stop he))
  · change Ensures _ _ (isrTransmitFileUncompressedLoop fd fuel (checksumOf [])) Q w
    refine ensures_isrTransmitFileUncompressedLoop hP fuel ?_ ?_ ?_ ?_ ?_
    · exact fun _ _ hrun hlen => hspin (hlen.symm.le.trans hrun.length_le_readsLeft) _
    · exact fun _ _ _ hrun hend => hQ _ _ _ (hrun.onlyRead.trans (Sys.onlyRead_of_readStep hend))
    · exact fun _ _ _ hrun herr => hQ _ _ _ (hrun.onlyRead.trans herr.onlyRead)
    · exact fun _ _ _ _ hrun _ => hQ _ _ _ hrun.onlyRead
    · exact fun _ _ _ _ _ hrun he =>
        hQ _ _ _ (hrun.onlyRead.trans (Sys.onlyRead_of_readStep he))

/-! ## Accepting a file -/

/-- The calls of `mkdir` that make the parent directories of a file. -/
def parentTargets (fullPath : List UInt8) : List (List UInt8) :=
  (isrParentDir fullPath isrPathMax).elim [] mkdirTargets

/-- The reply that accepts a SEND. -/
def acceptance (present : Bool) : List UInt8 :=
  (sendResponse (if present then isrSendResponseOverwriting else isrSendResponseCreating)
    none).bytes

/-- The part of `acceptFile` after the parent directories: accept, open the file and
receive it. -/
def replyAndReceive (L : Lz4) (fuel : Nat) (header : IsrSendCommandHeader)
    (fullPath : List UInt8) (present : Bool) : Prog Int := do
  let respType := if present then isrSendResponseOverwriting else isrSendResponseCreating
  if (← isrTransmitSendResponse respType none) = -1 then return -1
  match ← isrOpenWrite fullPath with
  | none => return -1
  | some fd =>
    let result ← receiveFile L fuel fd header.flags header.uncompressedBlockSize
      header.effectiveLength
    isrClose fd
    sendResult result

/-- There is no parent directory to make. -/
theorem acceptFile_of_none {L : Lz4} {fuel : Nat} {header : IsrSendCommandHeader}
    {fullPath : List UInt8} {present : Bool} (h : isrParentDir fullPath isrPathMax = none) :
    acceptFile L fuel header fullPath present =
      replyAndReceive L fuel header fullPath present := by
  unfold acceptFile
  rw [h]
  rfl

theorem acceptFile_of_some {L : Lz4} {fuel : Nat} {header : IsrSendCommandHeader}
    {fullPath parent : List UInt8} {present : Bool}
    (h : isrParentDir fullPath isrPathMax = some parent) :
    acceptFile L fuel header fullPath present =
      isrMkdirRecursive parent >>= fun _ => replyAndReceive L fuel header fullPath present := by
  unfold acceptFile
  rw [h]
  rfl

/-- What has to be shown about `acceptFile`. -/
structure AcceptCases (F : Faults) (lossy eof : Bool) (A : Guard (NetOp OsOp) World) (L : Lz4)
    (fuel : Nat) (header : IsrSendCommandHeader) (fullPath : List UInt8) (present : Bool)
    (Q : Int → World → Prop) (w : World) : Prop where
  /-- A parent directory is made. -/
  mkdir : ∀ ps p qs s, parentTargets fullPath = ps ++ p :: qs → Mkdirs F w.sys ps s →
    A (w.withSys s) (.sys (.mkdir p))
  /-- The file is opened. -/
  openWrite : ∀ s, Mkdirs F w.sys (parentTargets fullPath) s →
    A ((w.withSys s).sent (acceptance present)) (.sys (.openWrite fullPath))
  /-- The reply does not get through. -/
  cut : ∀ s k, Mkdirs F w.sys (parentTargets fullPath) s → lossy → k < sizeofResponse →
    Q (-1) ((w.withSys s).sent ((acceptance present).take k))
  /-- The file cannot be opened. -/
  fail : ∀ s, Mkdirs F w.sys (parentTargets fullPath) s →
    ((s.openWrite fullPath).1 = none ∨ F.opens) →
    Q (-1) ((w.withSys s).sent (acceptance present))
  /-- The file is open: receive it, and report the result. -/
  data : ∀ s fd s', Mkdirs F w.sys (parentTargets fullPath) s →
    s.openWrite fullPath = (some fd, s') →
    Ensures (machine F lossy eof) A
      (receiveFile L fuel fd header.flags header.uncompressedBlockSize header.effectiveLength)
      (fun r v => ∀ u, Sends lossy v (resultBytes r) u → Q (resultStatus r) u)
      ((w.withSys s').sent (acceptance present))

theorem ensures_acceptFile (hP : Permits A) {L : Lz4} {fuel : Nat}
    {header : IsrSendCommandHeader} {fullPath : List UInt8} {present : Bool}
    {Q : Int → World → Prop}
    (h : AcceptCases F lossy eof A L fuel header fullPath present Q w) :
    Ensures (machine F lossy eof) A (acceptFile L fuel header fullPath present) Q w := by
  -- from the reply on
  have hopen : ∀ s, Mkdirs F w.sys (parentTargets fullPath) s →
      Ensures (machine F lossy eof) A (replyAndReceive L fuel header fullPath present) Q
        (w.withSys s) := by
    intro s hs
    unfold replyAndReceive
    rw [ensures_bind]
    refine ensures_isrTransmitSendResponse hP ?_ (fun hl k hk => ?_)
    · rw [if_neg (by decide), ensures_bind, ensures_openWrite]
      refine ⟨h.openWrite s hs, ?_, fun hf => h.fail s hs (Or.inr hf)⟩
      simp only [Proc.sent_sys, Proc.withSys_sys]
      cases hres : s.openWrite fullPath with
      | mk result s' =>
        cases result with
        | none =>
          have hsame : s' = s := by
            have hnone := Sys.openWrite_none (congrArg Prod.fst hres)
            rw [hres] at hnone
            exact hnone
          have hq := h.fail s hs (Or.inl (congrArg Prod.fst hres))
          rw [hsame]
          exact hq
        | some fd =>
          simp only [ensures_bind, ensures_close]
          refine (h.data s fd s' hs hres).mono fun r v hv => ⟨hP.closeFd _ _, ?_⟩
          exact ensures_sendResult hP hv
    · rw [if_pos rfl]
      exact h.cut s k hs hl hk
  have hmkdir := h.mkdir
  unfold parentTargets at hmkdir hopen
  cases hparent : isrParentDir fullPath isrPathMax with
  | none =>
    rw [hparent] at hopen
    rw [acceptFile_of_none hparent]
    exact hopen w.sys (.nil _)
  | some parent =>
    rw [hparent] at hmkdir hopen
    rw [acceptFile_of_some hparent, ensures_bind]
    exact ensures_isrMkdirRecursive' hmkdir fun r s hs => hopen s hs

/-! ## SEND -/

/-- The reply to the making of a directory. -/
def mkdirReply (r : MkdirResult) : List UInt8 :=
  if r = .failed then refusal "Failed to create directory"
  else (sendResponse isrResultOk none).bytes

/-- What has to be shown about `isr_receive_send_command`, for a path that is valid
and resolves to `fullPath`. -/
structure SendCases (F : Faults) (lossy eof : Bool) (A : Guard (NetOp OsOp) World) (L : Lz4)
    (fuel : Nat) (header : IsrSendCommandHeader) (fullPath : List UInt8)
    (Q : Int → World → Prop) (w : World) : Prop where
  /-- A directory on the way to the requested one is made. -/
  mkdirTarget : hasFlag header.flags isrFlagCreateDirectory → ∀ ps p qs s,
    mkdirTargets fullPath = ps ++ p :: qs → Mkdirs F w.sys ps s →
    A (w.withSys s) (.sys (.mkdir p))
  /-- The last call decides. -/
  mkdir : hasFlag header.flags isrFlagCreateDirectory → ∀ ps p s r s' v,
    mkdirTargets fullPath = ps ++ [p] → Mkdirs F w.sys ps s → MkdirStep F s p r s' →
    Sends lossy (w.withSys s') (mkdirReply r) v → Q (mkdirStatus r) v
  /-- The path is looked up. -/
  stat : hasFlag header.flags isrFlagCreateDirectory = false → A w (.sys (.stat fullPath))
  /-- There is a directory. -/
  directory : hasFlag header.flags isrFlagCreateDirectory = false → ∀ size v,
    w.sys.StatStep fullPath (some (true, size)) →
    Sends lossy w (refusal "Path is a directory") v → Q (-1) v
  /-- There is a file, and it may not be overwritten. -/
  present : hasFlag header.flags isrFlagCreateDirectory = false → ∀ size v,
    w.sys.StatStep fullPath (some (false, size)) →
    hasFlag header.flags isrFlagOverwrite = false →
    Sends lossy w (refusal "File exists, overwrite not set") v → Q (-1) v
  /-- There is none. -/
  create : hasFlag header.flags isrFlagCreateDirectory = false →
    w.sys.StatStep fullPath none → AcceptCases F lossy eof A L fuel header fullPath false Q w
  /-- There is one, to be overwritten. -/
  overwrite : hasFlag header.flags isrFlagCreateDirectory = false → ∀ size,
    w.sys.StatStep fullPath (some (false, size)) →
    hasFlag header.flags isrFlagOverwrite = true →
    AcceptCases F lossy eof A L fuel header fullPath true Q w

/-- The server would accept a file under this path. -/
def Accepts (s : Sys) (root : List UInt8) (flags : UInt8) (path : List UInt8) : Prop :=
  isrValidatePath path ≠ -1 ∧ hasFlag flags isrFlagCreateDirectory = false ∧
    ∃ full, resolvedPath s root path isrPathMax = some full ∧
      (s.StatStep full none ∨
        (hasFlag flags isrFlagOverwrite = true ∧ ∃ size, s.StatStep full (some (false, size))))

theorem ensures_isrReceiveSendCommand (hP : Permits A) {L : Lz4} {fuel : Nat}
    {root path : List UInt8} {header : IsrSendCommandHeader} {Q : Int → World → Prop}
    (hrealpath : isrValidatePath path ≠ -1 → ∀ p, A w (.sys (.realpath p)))
    (hinvalid : isrValidatePath path = -1 → ∀ v, Sends lossy w (refusal "Invalid path") v →
      Q (-1) v)
    (hunresolved : isrValidatePath path ≠ -1 → resolvedPath w.sys root path isrPathMax = none →
      ∀ v, Sends lossy w (refusal "Path resolution failed") v → Q (-1) v)
    (hresolved : isrValidatePath path ≠ -1 → ∀ fullPath,
      resolvedPath w.sys root path isrPathMax = some fullPath →
      SendCases F lossy eof A L fuel header fullPath Q w) :
    Ensures (machine F lossy eof) A (isrReceiveSendCommand L fuel root header path) Q w := by
  unfold isrReceiveSendCommand
  split
  case isTrue hbad => exact ensures_refuseSend hP (hinvalid hbad)
  case isFalse hok =>
    rw [ensures_bind]
    refine ensures_isrResolvePath (hrealpath hok) ?_
    cases hfull : resolvedPath w.sys root path isrPathMax with
    | none => exact ensures_refuseSend hP (hunresolved hok hfull)
    | some fullPath =>
      have h := hresolved hok fullPath hfull
      simp only
      split
      case isTrue hflag =>
        rw [ensures_bind]
        refine ensures_isrMkdirRecursive (h.mkdirTarget hflag) fun ps p s r s' hps hrun hr => ?_
        have hq := h.mkdir hflag ps p s r s'
        by_cases hfail : r = .failed
        · subst hfail
          exact ensures_refuseSend hP fun v hv => hq v hps hrun hr hv
        · have hstatus : mkdirStatus r = 0 := if_neg hfail
          have hreply : mkdirReply r = (sendResponse isrResultOk none).bytes := if_neg hfail
          rw [hstatus, hreply] at hq
          rw [hstatus, if_neg (by decide), ensures_bind]
          refine ensures_isrTransmitSendResponse hP (hq _ hps hrun hr (Or.inl rfl)) ?_
          intro hl k hk
          exact hq _ hps hrun hr (Or.inr ⟨hl, k, by rw [length_sendResponse]; exact hk, rfl⟩)
      case isFalse hflag =>
        have hflag' : hasFlag header.flags isrFlagCreateDirectory = false := by simpa using hflag
        rw [ensures_bind, ensures_stat]
        refine ⟨h.stat hflag', fun r hr => ?_⟩
        rcases r with - | ⟨isDir, size⟩
        · exact ensures_acceptFile hP (h.create hflag' hr)
        · cases isDir with
          | true => exact ensures_refuseSend hP fun v hv => h.directory hflag' size v hr hv
          | false =>
            simp only [Bool.false_eq_true, if_false]
            split
            case isTrue hno =>
              exact ensures_refuseSend hP fun v hv => h.present hflag' size v hr hno hv
            case isFalse hover =>
              exact ensures_acceptFile hP (h.overwrite hflag' size hr (by simpa using hover))

/-! ## RECV -/

/-- What has to be shown about `serveFile`. -/
structure ServeCases (F : Faults) (lossy eof : Bool) (A : Guard (NetOp OsOp) World) (L : Lz4)
    (fuel : Nat) (header : IsrRecvCommandHeader) (fullPath : List UInt8) (fileSize : Nat)
    (Q : Int → World → Prop) (w : World) : Prop where
  /-- The confirmation does not get through. -/
  cut : ∀ k, lossy → k < sizeofRecvConfirmation →
    Q (-1) (w.sent ((confirmation isrRecvTypeFile fileSize).take k))
  /-- The client's answer is received. -/
  recv : A (w.sent (confirmation isrRecvTypeFile fileSize)) (.recv 1 1)
  /-- The client does not answer. -/
  silent : (lossy ∨ (eof ∧ w.rx = [])) → Q (-1) (w.sent (confirmation isrRecvTypeFile fileSize))
  /-- The client does not want the file. -/
  unable : ∀ rest, w.rx = isrRecvUnable :: rest →
    Q 0 ((w.sent (confirmation isrRecvTypeFile fileSize)).received 1)
  /-- The file is opened. -/
  openRead : ∀ go rest, w.rx = go :: rest → go ≠ isrRecvUnable →
    A ((w.sent (confirmation isrRecvTypeFile fileSize)).received 1) (.sys (.openRead fullPath))
  /-- The file cannot be opened. -/
  fail : ∀ go rest, w.rx = go :: rest → go ≠ isrRecvUnable →
    ((w.sys.openRead fullPath).1 = none ∨ F.opens) →
    Q (-1) ((w.sent (confirmation isrRecvTypeFile fileSize)).received 1)
  /-- The file is open: stream it. -/
  data : ∀ go rest fd s, w.rx = go :: rest → go ≠ isrRecvUnable →
    w.sys.openRead fullPath = (some fd, s) →
    Ensures (machine F lossy eof) A
      (transmitFile L fuel fd header.flags header.uncompressedBlockSize)
      (fun r v => Q (if 0 ≤ r then 0 else -1) v)
      (((w.withSys s).received 1).sent (confirmation isrRecvTypeFile fileSize))

theorem ensures_serveFile (hP : Permits A) {L : Lz4} {fuel : Nat}
    {header : IsrRecvCommandHeader} {fullPath : List UInt8} {fileSize : Nat}
    {Q : Int → World → Prop}
    (h : ServeCases F lossy eof A L fuel header fullPath fileSize Q w) :
    Ensures (machine F lossy eof) A (serveFile L fuel header fullPath fileSize) Q w := by
  unfold serveFile
  rw [ensures_bind]
  refine ensures_isrSendRecvConfirmation hP ?_ (fun hl k hk => ?_)
  · rw [if_neg (by decide), ensures_bind]
    refine ensures_netRecvByte h.recv (fun go rest hrx => ?_) h.silent
    rw [Proc.sent_rx] at hrx
    simp only
    split
    case isTrue hgo =>
      obtain rfl : go = isrRecvUnable := by simpa using hgo
      exact h.unable rest hrx
    case isFalse hgo =>
      have hgo' : go ≠ isrRecvUnable := by simpa using hgo
      rw [ensures_bind, ensures_openRead]
      refine ⟨h.openRead go rest hrx hgo', ?_, fun hf => h.fail go rest hrx hgo' (Or.inr hf)⟩
      simp only [Proc.received_sys, Proc.sent_sys]
      cases hres : w.sys.openRead fullPath with
      | mk result s =>
        cases result with
        | none =>
          have hsame : s = w.sys := by
            have hnone := Sys.openRead_none (congrArg Prod.fst hres)
            rw [hres] at hnone
            exact hnone
          rw [hsame]
          exact h.fail go rest hrx hgo' (Or.inl (congrArg Prod.fst hres))
        | some fd =>
          simp only [ensures_bind, ensures_close, ensures_pure]
          exact (h.data go rest fd s hrx hgo' hres).mono fun r v hv => ⟨hP.closeFd _ _, hv⟩
  · rw [if_pos rfl]
    exact h.cut k hl hk

theorem ensures_isrReceiveRecvCommand (hP : Permits A) {L : Lz4} {fuel : Nat}
    {root path : List UInt8} {header : IsrRecvCommandHeader} {Q : Int → World → Prop}
    (hrealpath : isrValidatePath path ≠ -1 → ∀ p, A w (.sys (.realpath p)))
    (hrefused : (isrValidatePath path = -1 ∨ resolvedPath w.sys root path isrPathMax = none) →
      ∀ v, Sends lossy w (confirmation isrResultOtherFailure 0) v → Q (-1) v)
    (hstat : isrValidatePath path ≠ -1 → ∀ fullPath,
      resolvedPath w.sys root path isrPathMax = some fullPath → A w (.sys (.stat fullPath)))
    (hmissing : isrValidatePath path ≠ -1 → ∀ fullPath,
      resolvedPath w.sys root path isrPathMax = some fullPath → w.sys.StatStep fullPath none →
      ∀ v, Sends lossy w (confirmation isrRecvTypeNotFound 0) v → Q 0 v)
    (hdirectory : isrValidatePath path ≠ -1 → ∀ fullPath size,
      resolvedPath w.sys root path isrPathMax = some fullPath →
      w.sys.StatStep fullPath (some (true, size)) →
      Ensures (machine F lossy eof) A (isrTransmitRecvDirectoryListing fullPath) Q w)
    (hfile : isrValidatePath path ≠ -1 → ∀ fullPath size,
      resolvedPath w.sys root path isrPathMax = some fullPath →
      w.sys.StatStep fullPath (some (false, size)) →
      ServeCases F lossy eof A L fuel header fullPath size Q w) :
    Ensures (machine F lossy eof) A (isrReceiveRecvCommand L fuel root header path) Q w := by
  have hconf : ∀ t status, (∀ v, Sends lossy w (confirmation t 0) v → Q status v) →
      Ensures (machine F lossy eof) A (do
        let _ ← isrSendRecvConfirmation t 0
        return status) Q w := by
    intro t status hQ
    rw [ensures_bind]
    refine ensures_isrSendRecvConfirmation hP (hQ _ (Or.inl rfl)) (fun hl k hk => ?_)
    exact hQ _ (Or.inr ⟨hl, k, by rw [confirmation, length_recvConfirmation]; exact hk, rfl⟩)
  unfold isrReceiveRecvCommand
  split
  case isTrue hbad => exact hconf _ _ (hrefused (Or.inl hbad))
  case isFalse hok =>
    rw [ensures_bind]
    refine ensures_isrResolvePath (hrealpath hok) ?_
    cases hfull : resolvedPath w.sys root path isrPathMax with
    | none => exact hconf _ _ (hrefused (Or.inr hfull))
    | some fullPath =>
      simp only
      rw [ensures_bind, ensures_stat]
      refine ⟨hstat hok fullPath hfull, fun r hr => ?_⟩
      rcases r with - | ⟨isDir, size⟩
      · exact hconf _ _ (hmissing hok fullPath hfull hr)
      · cases isDir with
        | true => exact hdirectory hok fullPath size hfull hr
        | false => exact ensures_serveFile hP (hfile hok fullPath size hfull hr)

/-! ## Commands -/

/-- What has to be shown about `isr_receive_command`. -/
structure CommandCases (F : Faults) (lossy eof : Bool) (A : Guard (NetOp OsOp) World) (L : Lz4)
    (fuel : Nat) (root : List UInt8) (Q : Int → World → Prop) (w : World) : Prop where
  /-- Part of the command is received. -/
  recv : ∀ k room len, k ≤ w.rx.length → 0 < len → len ≤ room → k + len ≤ commandLength w.rx →
    A (w.received k) (.recv room len)
  /-- The stream ends early. -/
  short : ∀ k, k ≤ w.rx.length → k < commandLength w.rx →
    (lossy ∨ (eof ∧ k = w.rx.length)) → Q (-1) (w.received k)
  /-- The path is too long. -/
  long : ∀ k, commandLength w.rx = k → k ≤ w.rx.length →
    (w.rx.head? = some isrCommandSend ∧ isrPathMax ≤ (sendHeader w.rx).pathLength ∨
      w.rx.head? = some isrCommandRecv ∧ isrPathMax ≤ (recvHeader w.rx).pathLength) →
    Q (-1) (w.received k)
  /-- There is no such command. -/
  unknown : ∀ cmd rest, w.rx = cmd :: rest → cmd ≠ isrCommandSend → cmd ≠ isrCommandRecv →
    ∀ line, Q (-1) ((w.received 1).withSys { w.sys with errors := w.sys.errors ++ [line] })
  /-- A SEND command. -/
  send : w.rx.head? = some isrCommandSend → (sendHeader w.rx).pathLength < isrPathMax →
    16 + (sendHeader w.rx).pathLength ≤ w.rx.length →
    Ensures (machine F lossy eof) A
      (isrReceiveSendCommand L fuel root (sendHeader w.rx) (cstr (sendPath w.rx))) Q
      (w.received (16 + (sendHeader w.rx).pathLength))
  /-- A RECV command. -/
  recvCommand : w.rx.head? = some isrCommandRecv → (recvHeader w.rx).pathLength < isrPathMax →
    8 + (recvHeader w.rx).pathLength ≤ w.rx.length →
    Ensures (machine F lossy eof) A
      (isrReceiveRecvCommand L fuel root (recvHeader w.rx) (cstr (recvPath w.rx))) Q
      (w.received (8 + (recvHeader w.rx).pathLength))

/-- The rule for `isr_receive_command`. -/
theorem ensures_isrReceiveCommand (hP : Permits A) {L : Lz4} {fuel : Nat} {root : List UInt8}
    {Q : Int → World → Prop} (h : CommandCases F lossy eof A L fuel root Q w) :
    Ensures (machine F lossy eof) A (isrReceiveCommand L fuel root) Q w := by
  rw [isrReceiveCommand_eq, ensures_bind]
  exact ensures_isrReadCommand hP
    ⟨h.recv, h.short, h.long, h.unknown, h.send, h.recvCommand⟩

/-- One turn of the accept loop closes the connection. -/
theorem ensures_serveConnection (hP : Permits A) {L : Lz4} {fuel : Nat} {root : List UInt8}
    {Q : Int → World → Prop}
    (h : Ensures (machine F lossy eof) A (isrReceiveCommand L fuel root) Q w) :
    Ensures (machine F lossy eof) A (serveConnection L fuel root) Q w := by
  unfold serveConnection
  simp only [ensures_bind, ensures_netClose, ensures_pure]
  exact h.mono fun r v hv => ⟨hP.close v, hv⟩

/-! ## The root -/

/-- **The root that `cmd_serve` sets is the real path of a directory.**  All that is said of
the server is said for such a root. -/
theorem ensures_cmdServeRoot {directory : List UInt8} :
    Ensures (machine F lossy eof) Anything (cmdServeRoot directory)
      (fun r v => ∀ root, r = some root → ∃ l, Canonical v.sys.fs root l) w := by
  have hnone : ∀ (line : Line) (v : World), Ensures (machine F lossy eof) Anything (do
      sysCall (.eprint line)
      return none) (fun r v => ∀ root, r = some root → ∃ l, Canonical v.sys.fs root l) v := by
    intro line v
    rw [ensures_bind, ensures_eprint]
    exact ⟨trivial, fun root h => absurd h (by simp)⟩
  unfold cmdServeRoot
  simp only
  rw [ensures_bind, ensures_stat]
  refine ⟨trivial, fun r hr => ?_⟩
  rcases r with - | ⟨isDir, size⟩
  · exact hnone _ _
  · cases isDir with
    | false => exact hnone _ _
    | true =>
      simp only
      rw [if_neg (by decide), ensures_bind, ensures_realpath]
      refine ⟨trivial, ?_⟩
      cases hrp : w.sys.realpath (stripSeparators directory) with
      | none => exact hnone _ _
      | some rp =>
        intro root hroot
        obtain ⟨k, nd, hk, hnd, heq, hlen⟩ := realpath_eq_some hrp
        obtain rfl : rp = root := by
          have hcopy : strncpy rp isrPathMax = rp :=
            List.take_of_length_le (by unfold isrPathMax; unfold pathMax at hlen; omega)
          rw [← hcopy]
          exact Option.some.inj hroot
        obtain ⟨k', hk', hdir⟩ := Sys.statStep_dir hr
        obtain rfl : k = k' := Option.some.inj (hk.symm.trans hk')
        exact ⟨k, heq, hdir, hlen⟩

end IsrTransfer
