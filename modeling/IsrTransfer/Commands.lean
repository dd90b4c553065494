import IsrTransfer.Transport

/-!
# Commands, replies and results (`lib/isr.c`, `lib/isr.h`)

What the two sides send each other around the data: a command is a byte for its kind, a header and
the path; the replies are fixed records.  The length of the path is a `uint16_t`, and so many
bytes of the path are sent (`pathLen`).

A command leaves in three sends, of its kind, its header and its path, any of which may fail when
the network does; a reply leaves in one.  The rules make no difference between them: a command or
a reply is sent as a whole, or the connection has failed with some of its bytes sent.
-/

namespace IsrTransfer

open Effect Posix

/-- `(uint16_t)strlen(path)`. -/
def pathLen (path : List UInt8) : Nat := path.length % 65536

/-- `isr_transmit_send_command`. -/
def isrTransmitSendCommand (path : List UInt8) (flags : UInt8)
    (uncompressedBlockSize effectiveLength : Nat) : Prog Int := do
  if (← netSendExact [isrCommandSend]) = -1 then return -1
  let header : IsrSendCommandHeader :=
    { flags := flags, pathLength := pathLen path
      uncompressedBlockSize := uncompressedBlockSize
      effectiveLength := effectiveLength }
  if (← netSendExact header.bytes) = -1 then return -1
  if (← netSendExact (path.take (pathLen path))) = -1 then return -1
  return 0

/-- `isr_transmit_recv_command`. -/
def isrTransmitRecvCommand (path : List UInt8) (flags : UInt8)
    (uncompressedBlockSize : Nat) : Prog Int := do
  if (← netSendExact [isrCommandRecv]) = -1 then return -1
  let header : IsrRecvCommandHeader :=
    { flags := flags, pathLength := pathLen path
      uncompressedBlockSize := uncompressedBlockSize }
  if (← netSendExact header.bytes) = -1 then return -1
  if (← netSendExact (path.take (pathLen path))) = -1 then return -1
  return 0

/-- The record `isr_transmit_send_response` sends; `none` is a null pointer. -/
def sendResponse (responseType : UInt8) (responseData : Option (List UInt8)) :
    IsrResponse :=
  match responseData with
  | some data =>
    if responseType = isrResultOtherFailure then isrResponseFromError data
    else isrResponseFromResult responseType
  | none => isrResponseFromResult responseType

/-- `isr_transmit_send_response`. -/
def isrTransmitSendResponse (responseType : UInt8) (responseData : Option (List UInt8)) :
    Prog Int := do
  if (← netSendExact (sendResponse responseType responseData).bytes) = -1 then return -1
  return 0

/-- `isr_transmit_send_result`. -/
def isrTransmitSendResult (responseType : UInt8) : Prog Int :=
  isrTransmitSendResponse responseType none

/-- `isr_send_recv_confirmation`. -/
def isrSendRecvConfirmation (type : UInt8) (length : Nat) : Prog Int :=
  netSendExact (IsrRecvConfirmation.bytes ⟨type, length⟩)

@[simp] theorem length_sendResponse (t : UInt8) (data : Option (List UInt8)) :
    (sendResponse t data).bytes.length = sizeofResponse := by
  unfold sendResponse
  split
  · split
    · exact length_responseFromError _
    · exact length_responseFromResult _
  · exact length_responseFromResult _

/-- The first byte of a reply is its kind. -/
@[simp] theorem head_sendResponse (t : UInt8) (data : Option (List UInt8)) :
    (sendResponse t data).responseType = t := by
  unfold sendResponse
  split
  · split
    · rename_i h
      exact h.symm
    · rfl
  · rfl

/-- A SEND command on the wire. -/
def sendCommandBytes (path : List UInt8) (flags : UInt8)
    (uncompressedBlockSize effectiveLength : Nat) : List UInt8 :=
  isrCommandSend :: (IsrSendCommandHeader.bytes
    ⟨flags, pathLen path, uncompressedBlockSize, effectiveLength⟩ ++
      path.take (pathLen path))

/-- A RECV command on the wire. -/
def recvCommandBytes (path : List UInt8) (flags : UInt8) (uncompressedBlockSize : Nat) :
    List UInt8 :=
  isrCommandRecv :: (IsrRecvCommandHeader.bytes ⟨flags, pathLen path, uncompressedBlockSize⟩ ++
    path.take (pathLen path))

/-- A confirmation on the wire. -/
def confirmation (type : UInt8) (length : Nat) : List UInt8 :=
  IsrRecvConfirmation.bytes ⟨type, length⟩

section Rules

variable {F : Faults} {lossy eof : Bool} {A : Guard (NetOp OsOp) World} {w : World}
variable {α : Type}

/-- Send something and go on, or stop if that fails: the shape of every send. -/
theorem ensures_sendOr (hP : Permits A) {buf : List UInt8} {stop next : Prog α}
    {Q : α → World → Prop}
    (hnext : Ensures (machine F lossy eof) A next Q (w.sent buf))
    (hstop : lossy → ∀ k, k < buf.length →
      Ensures (machine F lossy eof) A stop Q (w.sent (buf.take k))) :
    Ensures (machine F lossy eof) A
      (netSendExact buf >>= fun r => if r = -1 then stop else next) Q w := by
  rw [ensures_bind]
  refine ensures_netSendExact (fun k hk => hP.send _ _ ?_) ?_ ?_
  · intro hnil
    rw [List.drop_eq_nil_iff] at hnil
    omega
  · rw [if_neg (by decide)]
    exact hnext
  · intro k hk hl
    rw [if_pos rfl]
    exact hstop hl k hk

/-- A command is sent as a whole, or the connection has failed. -/
theorem ensures_isrTransmitSendCommand (hP : Permits A) {path : List UInt8} {flags : UInt8}
    {blockSize n : Nat} {Q : Int → World → Prop}
    (hok : Q 0 (w.sent (sendCommandBytes path flags blockSize n)))
    (hfail : lossy → ∀ data, Q (-1) (w.sent data)) :
    Ensures (machine F lossy eof) A (isrTransmitSendCommand path flags blockSize n) Q w := by
  unfold isrTransmitSendCommand
  refine ensures_sendOr hP ?_ (fun hl k _ => hfail hl _)
  refine ensures_sendOr hP ?_ (fun hl k _ => by rw [Proc.sent_sent]; exact hfail hl _)
  refine ensures_sendOr hP ?_ (fun hl k _ => by
    rw [Proc.sent_sent, Proc.sent_sent]; exact hfail hl _)
  rw [ensures_pure, Proc.sent_sent, Proc.sent_sent]
  exact hok

theorem ensures_isrTransmitRecvCommand (hP : Permits A) {path : List UInt8} {flags : UInt8}
    {blockSize : Nat} {Q : Int → World → Prop}
    (hok : Q 0 (w.sent (recvCommandBytes path flags blockSize)))
    (hfail : lossy → ∀ data, Q (-1) (w.sent data)) :
    Ensures (machine F lossy eof) A (isrTransmitRecvCommand path flags blockSize) Q w := by
  unfold isrTransmitRecvCommand
  refine ensures_sendOr hP ?_ (fun hl k _ => hfail hl _)
  refine ensures_sendOr hP ?_ (fun hl k _ => by rw [Proc.sent_sent]; exact hfail hl _)
  refine ensures_sendOr hP ?_ (fun hl k _ => by
    rw [Proc.sent_sent, Proc.sent_sent]; exact hfail hl _)
  rw [ensures_pure, Proc.sent_sent, Proc.sent_sent]
  exact hok

/-- A reply is sent as a whole, or the connection has failed. -/
theorem ensures_isrTransmitSendResponse (hP : Permits A) {t : UInt8}
    {data : Option (List UInt8)} {Q : Int → World → Prop}
    (hok : Q 0 (w.sent (sendResponse t data).bytes))
    (hfail : lossy → ∀ k, k < sizeofResponse →
      Q (-1) (w.sent ((sendResponse t data).bytes.take k))) :
    Ensures (machine F lossy eof) A (isrTransmitSendResponse t data) Q w := by
  unfold isrTransmitSendResponse
  refine ensures_sendOr hP hok (fun hl k hk => ?_)
  rw [length_sendResponse] at hk
  exact hfail hl k hk

theorem ensures_isrSendRecvConfirmation (hP : Permits A) {t : UInt8} {n : Nat}
    {Q : Int → World → Prop} (hok : Q 0 (w.sent (IsrRecvConfirmation.bytes ⟨t, n⟩)))
    (hfail : lossy → ∀ k, k < sizeofRecvConfirmation →
      Q (-1) (w.sent ((IsrRecvConfirmation.bytes ⟨t, n⟩).take k))) :
    Ensures (machine F lossy eof) A (isrSendRecvConfirmation t n) Q w := by
  refine ensures_netSendExact (fun k hk => hP.send _ _ ?_) hok (fun k hk hl => ?_)
  · intro hnil
    rw [List.drop_eq_nil_iff] at hnil
    omega
  · rw [length_recvConfirmation] at hk
    exact hfail hl k hk

/-- A single byte is received. -/
theorem ensures_netRecvByte {Q : Option (List UInt8) → World → Prop}
    (hA : A w (.recv 1 1)) (hok : ∀ b rest, w.rx = b :: rest → Q (some [b]) (w.received 1))
    (hfail : (lossy ∨ (eof ∧ w.rx = [])) → Q none w) :
    Ensures (machine F lossy eof) A (netRecvExact 1 1) Q w := by
  refine ensures_netRecvExact (fun k hk _ => ?_) (fun hlen => ?_) (fun k hk hkr hl => ?_)
  · obtain rfl : k = 0 := by omega
    rw [Proc.received_zero]
    exact hA
  · cases hrx : w.rx with
    | nil => simp [hrx] at hlen
    | cons b rest =>
      rw [List.take_succ_cons, List.take_zero]
      exact hok b rest hrx
  · obtain rfl : k = 0 := by omega
    rw [Proc.received_zero]
    refine hfail ?_
    rcases hl with hl | ⟨he, hl⟩
    · exact Or.inl hl
    · exact Or.inr ⟨he, List.eq_nil_of_length_eq_zero hl.symm⟩

end Rules

end IsrTransfer
