import IsrTransfer.Server

/-!
# Reading a command

`isr_receive_command` is in two parts, reading a command and handling it (`isrReceiveCommand_eq`).
The first part has nothing to do with files.  The rule for it has one case for each way in which
the bytes on the stream can turn out, in terms of the stream itself: the header that stands there
(`sendHeader`, `recvHeader`), the path (`sendPath`, `recvPath`) and how far the command reaches
(`commandLength`).

These are functions of any list of bytes, whether a command stands there or not.  `ReadCases`
collects what a caller has to show: what follows if a command of either kind has been read, what
follows if none has, and that a receive inside `commandLength` is all right with the guard.  The
function receives nothing behind that length, which is what a server needs that is not to take
bytes of the data for the command.

The last section says what these are for the bytes that a client writes.  They are what the client
meant as far as the fields are wide, and only the length of the path may be too large for its
field.
-/

namespace IsrTransfer

open Effect Posix

variable {F : Faults} {lossy eof : Bool} {A : Guard (NetOp OsOp) World} {w : World}

/-! ## Reading and handling -/

/-- What `isr_receive_command` reads: the header and the path of one of the two
commands. -/
inductive Command where
  | send : (header : IsrSendCommandHeader) → (path : List UInt8) → Command
  | recv : (header : IsrRecvCommandHeader) → (path : List UInt8) → Command

/-- The part of `isr_receive_command` before a handler is called; `none` if none is. -/
def isrReadCommand : Prog (Option Command) := do
  match ← netRecvExact 1 1 with
  | none => return none
  | some cmd =>
    if cmd = [isrCommandSend] then
      match ← netRecvExact sizeofSendCommandHeader sizeofSendCommandHeader with
      | none => return none
      | some buf =>
        let header := IsrSendCommandHeader.ofBytes buf
        if isrPathMax ≤ header.pathLength then return none
        match ← netRecvExact isrPathMax header.pathLength with
        | none => return none
        | some path => return some (.send header (cstr path))
    else if cmd = [isrCommandRecv] then
      match ← netRecvExact sizeofRecvCommandHeader sizeofRecvCommandHeader with
      | none => return none
      | some buf =>
        let header := IsrRecvCommandHeader.ofBytes buf
        if isrPathMax ≤ header.pathLength then return none
        match ← netRecvExact isrPathMax header.pathLength with
        | none => return none
        | some path => return some (.recv header (cstr path))
    else
      sysCall (.eprint ⟨"Unknown command type: 0x%02x\n", [.num (ofBe cmd)]⟩)
      return none

/-- The part of `isr_receive_command` that calls a handler. -/
def handleCommand (L : Lz4) (fuel : Nat) (root : List UInt8) : Option Command → Prog Int
  | none => return -1
  | some (.send header path) => isrReceiveSendCommand L fuel root header path
  | some (.recv header path) => isrReceiveRecvCommand L fuel root header path

/-- **`isr_receive_command` reads a command and hands it over.**  Whatever is shown of the
reading holds at the beginning of either handler. -/
theorem isrReceiveCommand_eq (L : Lz4) (fuel : Nat) (root : List UInt8) :
    isrReceiveCommand L fuel root = isrReadCommand >>= handleCommand L fuel root := by
  unfold isrReceiveCommand isrReadCommand
  rw [bind_assoc]
  refine bind_congr fun cmd => ?_
  cases cmd with
  | none => rfl
  | some cmd =>
    simp only
    split
    · rw [bind_assoc]
      refine bind_congr fun buf => ?_
      cases buf with
      | none => rfl
      | some buf =>
        simp only
        split
        · rfl
        · rw [bind_assoc]
          refine bind_congr fun path => ?_
          cases path <;> rfl
    · split
      · rw [bind_assoc]
        refine bind_congr fun buf => ?_
        cases buf with
        | none => rfl
        | some buf =>
          simp only
          split
          · rfl
          · rw [bind_assoc]
            refine bind_congr fun path => ?_
            cases path <;> rfl
      · rfl

/-! ## What stands on the stream -/

/-- The header of the SEND command that a stream begins with. -/
def sendHeader (rx : List UInt8) : IsrSendCommandHeader :=
  .ofBytes ((rx.drop 1).take sizeofSendCommandHeader)

/-- The header of the RECV command that a stream begins with. -/
def recvHeader (rx : List UInt8) : IsrRecvCommandHeader :=
  .ofBytes ((rx.drop 1).take sizeofRecvCommandHeader)

/-- The bytes of the path in the SEND command that a stream begins with. -/
def sendPath (rx : List UInt8) : List UInt8 := (rx.drop 16).take (sendHeader rx).pathLength

/-- The bytes of the path in the RECV command that a stream begins with. -/
def recvPath (rx : List UInt8) : List UInt8 := (rx.drop 8).take (recvHeader rx).pathLength

/-- How many bytes `isr_receive_command` reads at most, as far as the bytes that are
there tell. -/
def commandLength (rx : List UInt8) : Nat :=
  match rx with
  | [] => 1
  | cmd :: _ =>
    if cmd = isrCommandSend then
      if rx.length < 16 ∨ isrPathMax ≤ (sendHeader rx).pathLength then 16
      else 16 + (sendHeader rx).pathLength
    else if cmd = isrCommandRecv then
      if rx.length < 8 ∨ isrPathMax ≤ (recvHeader rx).pathLength then 8
      else 8 + (recvHeader rx).pathLength
    else 1

/-- What is known of the length of a SEND command. -/
theorem commandLength_send {rx : List UInt8} (hcmd : rx.head? = some isrCommandSend) :
    16 ≤ commandLength rx ∧ (16 ≤ rx.length →
      (isrPathMax ≤ (sendHeader rx).pathLength → commandLength rx = 16) ∧
      ((sendHeader rx).pathLength < isrPathMax →
        commandLength rx = 16 + (sendHeader rx).pathLength)) := by
  cases rx with
  | nil => simp at hcmd
  | cons cmd rest =>
    obtain rfl : cmd = isrCommandSend := by simpa using hcmd
    simp only [commandLength, if_pos]
    refine ⟨?_, fun hlen => ⟨fun hlong => ?_, fun hshort => ?_⟩⟩
    · split <;> omega
    · rw [if_pos (Or.inr hlong)]
    · rw [if_neg (by omega)]

/-- What is known of the length of a RECV command. -/
theorem commandLength_recv {rx : List UInt8} (hcmd : rx.head? = some isrCommandRecv) :
    8 ≤ commandLength rx ∧ (8 ≤ rx.length →
      (isrPathMax ≤ (recvHeader rx).pathLength → commandLength rx = 8) ∧
      ((recvHeader rx).pathLength < isrPathMax →
        commandLength rx = 8 + (recvHeader rx).pathLength)) := by
  cases rx with
  | nil => simp at hcmd
  | cons cmd rest =>
    obtain rfl : cmd = isrCommandRecv := by simpa using hcmd
    have hne : ¬ isrCommandRecv = isrCommandSend := by decide
    simp only [commandLength, if_neg hne, if_pos]
    refine ⟨?_, fun hlen => ⟨fun hlong => ?_, fun hshort => ?_⟩⟩
    · split <;> omega
    · rw [if_pos (Or.inr hlong)]
    · rw [if_neg (by omega)]

theorem commandLength_pos (rx : List UInt8) : 1 ≤ commandLength rx := by
  unfold commandLength
  split
  · omega
  · split
    · split <;> omega
    · split
      · split <;> omega
      · omega

/-! ## The rule -/

/-- What has to be shown about the reading of a command. -/
structure ReadCases (lossy eof : Bool) (A : Guard (NetOp OsOp) World)
    (Q : Option Command → World → Prop) (w : World) : Prop where
  /-- Part of the command is received. -/
  recv : ∀ k room len, k ≤ w.rx.length → 0 < len → len ≤ room → k + len ≤ commandLength w.rx →
    A (w.received k) (.recv room len)
  /-- The stream ends early. -/
  short : ∀ k, k ≤ w.rx.length → k < commandLength w.rx →
    (lossy ∨ (eof ∧ k = w.rx.length)) → Q none (w.received k)
  /-- The path is too long. -/
  long : ∀ k, commandLength w.rx = k → k ≤ w.rx.length →
    (w.rx.head? = some isrCommandSend ∧ isrPathMax ≤ (sendHeader w.rx).pathLength ∨
      w.rx.head? = some isrCommandRecv ∧ isrPathMax ≤ (recvHeader w.rx).pathLength) →
    Q none (w.received k)
  /-- There is no such command. -/
  unknown : ∀ cmd rest, w.rx = cmd :: rest → cmd ≠ isrCommandSend → cmd ≠ isrCommandRecv →
    ∀ line, Q none ((w.received 1).withSys { w.sys with errors := w.sys.errors ++ [line] })
  /-- A SEND command. -/
  send : w.rx.head? = some isrCommandSend → (sendHeader w.rx).pathLength < isrPathMax →
    16 + (sendHeader w.rx).pathLength ≤ w.rx.length →
    Q (some (.send (sendHeader w.rx) (cstr (sendPath w.rx))))
      (w.received (16 + (sendHeader w.rx).pathLength))
  /-- A RECV command. -/
  recvCommand : w.rx.head? = some isrCommandRecv → (recvHeader w.rx).pathLength < isrPathMax →
    8 + (recvHeader w.rx).pathLength ≤ w.rx.length →
    Q (some (.recv (recvHeader w.rx) (cstr (recvPath w.rx))))
      (w.received (8 + (recvHeader w.rx).pathLength))

/-- Receive `len` bytes somewhere inside the command, which reaches up to `total`. -/
theorem ReadCases.ensures_part {Q : Option Command → World → Prop}
    (h : ReadCases lossy eof A Q w) {j room len : Nat}
    (hj : j ≤ w.rx.length) (hroom : len ≤ room) (htotal : j + len ≤ commandLength w.rx)
    {f : Option (List UInt8) → Prog (Option Command)} (hnone : f none = return none)
    (hsome : j + len ≤ w.rx.length → Ensures (machine F lossy eof) A
      (f (some ((w.rx.drop j).take len))) Q (w.received (j + len))) :
    Ensures (machine F lossy eof) A (netRecvExact room len >>= f) Q (w.received j) := by
  rw [ensures_bind]
  refine ensures_netRecvExact (fun k hk hkr => ?_) (fun hlen => ?_) (fun k hk hkr hl => ?_)
  · rw [Proc.received_rx, List.length_drop] at hkr
    rw [Proc.received_received]
    exact h.recv (j + k) _ _ (by omega) (by omega) (by omega) (by omega)
  · rw [Proc.received_rx, List.length_drop] at hlen
    rw [Proc.received_received]
    exact hsome (by omega)
  · rw [Proc.received_rx, List.length_drop] at hkr hl
    rw [hnone, ensures_pure, Proc.received_received]
    refine h.short (j + k) (by omega) (by omega) ?_
    rcases hl with hl | ⟨he, hl⟩
    · exact Or.inl hl
    · exact Or.inr ⟨he, by omega⟩

/-- The rule for the reading of a command. -/
theorem ensures_isrReadCommand (hP : Permits A) {Q : Option Command → World → Prop}
    (h : ReadCases lossy eof A Q w) :
    Ensures (machine F lossy eof) A isrReadCommand Q w := by
  have hpart : Ensures (machine F lossy eof) A isrReadCommand Q (w.received 0) := by
    unfold isrReadCommand
    refine h.ensures_part (Nat.zero_le _) (Nat.le_refl _) (commandLength_pos _) rfl fun hlen => ?_
    rw [List.drop_zero]
    cases hrx : w.rx with
    | nil => simp [hrx] at hlen
    | cons cmd rest =>
      rw [List.take_succ_cons, List.take_zero]
      change Ensures _ _ (if [cmd] = [isrCommandSend] then _ else _) _ _
      by_cases hcmd : cmd = isrCommandSend
      · -- a SEND
        subst hcmd
        rw [if_pos rfl]
        have hhead : w.rx.head? = some isrCommandSend := by rw [hrx]; rfl
        obtain ⟨h16, hlength⟩ := commandLength_send hhead
        refine h.ensures_part (by omega) (Nat.le_refl _) h16 rfl fun hlen => ?_
        have hlen16 : 16 ≤ w.rx.length := hlen
        obtain ⟨hlong, hshort⟩ := hlength hlen16
        change Ensures _ _ (if isrPathMax ≤ (sendHeader w.rx).pathLength then _ else _) _ _
        split
        case isTrue hpath => exact h.long 16 (hlong hpath) hlen16 (Or.inl ⟨hhead, hpath⟩)
        case isFalse hpath =>
          have hlt : (sendHeader w.rx).pathLength < isrPathMax := by omega
          refine h.ensures_part hlen16 (Nat.le_of_lt hlt) ?_ rfl (h.send hhead hlt)
          exact Nat.le_of_eq (hshort hlt).symm
      · rw [if_neg (by simpa using hcmd)]
        by_cases hrecv : cmd = isrCommandRecv
        · -- a RECV
          subst hrecv
          rw [if_pos rfl]
          have hhead : w.rx.head? = some isrCommandRecv := by rw [hrx]; rfl
          obtain ⟨h8, hlength⟩ := commandLength_recv hhead
          refine h.ensures_part (by omega) (Nat.le_refl _) h8 rfl fun hlen => ?_
          have hlen8 : 8 ≤ w.rx.length := hlen
          obtain ⟨hlong, hshort⟩ := hlength hlen8
          change Ensures _ _ (if isrPathMax ≤ (recvHeader w.rx).pathLength then _ else _) _ _
          split
          case isTrue hpath => exact h.long 8 (hlong hpath) hlen8 (Or.inr ⟨hhead, hpath⟩)
          case isFalse hpath =>
            have hlt : (recvHeader w.rx).pathLength < isrPathMax := by omega
            refine h.ensures_part hlen8 (Nat.le_of_lt hlt) ?_ rfl (h.recvCommand hhead hlt)
            exact Nat.le_of_eq (hshort hlt).symm
        · rw [if_neg (by simpa using hrecv), ensures_bind, ensures_eprint]
          exact ⟨hP.eprint _ _, h.unknown cmd rest hrx hcmd hrecv _⟩
  rw [Proc.received_zero] at hpart
  exact hpart

/-! ## A client's command -/

section Views

variable (path : List UInt8) (flags : UInt8) (blockSize n : Nat) (rest : List UInt8)

theorem pathLen_le : pathLen path ≤ path.length := Nat.mod_le _ _

theorem length_sendCommandBytes :
    (sendCommandBytes path flags blockSize n).length = 16 + pathLen path := by
  unfold sendCommandBytes
  rw [List.length_cons, List.length_append, length_sendCommandHeader, List.length_take,
    Nat.min_eq_left (pathLen_le path), sizeofSendCommandHeader]
  omega

theorem length_recvCommandBytes :
    (recvCommandBytes path flags blockSize).length = 8 + pathLen path := by
  unfold recvCommandBytes
  rw [List.length_cons, List.length_append, length_recvCommandHeader, List.length_take,
    Nat.min_eq_left (pathLen_le path), sizeofRecvCommandHeader]
  omega

theorem head_sendCommandBytes :
    (sendCommandBytes path flags blockSize n ++ rest).head? = some isrCommandSend := rfl

theorem head_recvCommandBytes :
    (recvCommandBytes path flags blockSize ++ rest).head? = some isrCommandRecv := rfl

/-- What the server reads in the header. -/
theorem sendHeader_sendCommandBytes :
    sendHeader (sendCommandBytes path flags blockSize n ++ rest) =
      ⟨flags, pathLen path, blockSize % 256 ^ 4, n % 256 ^ 8⟩ := by
  have hheader : ((sendCommandBytes path flags blockSize n ++ rest).drop 1).take
      sizeofSendCommandHeader = IsrSendCommandHeader.bytes ⟨flags, pathLen path, blockSize, n⟩ := by
    unfold sendCommandBytes
    rw [List.cons_append, List.drop_succ_cons, List.drop_zero, List.append_assoc]
    exact List.take_left' (length_sendCommandHeader _)
  rw [sendHeader, hheader, ofBytes_sendCommandHeader]
  have hlt : pathLen path % 256 ^ 2 = pathLen path := Nat.mod_mod _ _
  rw [hlt]

theorem recvHeader_recvCommandBytes :
    recvHeader (recvCommandBytes path flags blockSize ++ rest) =
      ⟨flags, pathLen path, blockSize % 256 ^ 4⟩ := by
  have hheader : ((recvCommandBytes path flags blockSize ++ rest).drop 1).take
      sizeofRecvCommandHeader = IsrRecvCommandHeader.bytes ⟨flags, pathLen path, blockSize⟩ := by
    unfold recvCommandBytes
    rw [List.cons_append, List.drop_succ_cons, List.drop_zero, List.append_assoc]
    exact List.take_left' (length_recvCommandHeader _)
  rw [recvHeader, hheader, ofBytes_recvCommandHeader]
  have hlt : pathLen path % 256 ^ 2 = pathLen path := Nat.mod_mod _ _
  rw [hlt]

/-- And the path. -/
theorem sendPath_sendCommandBytes :
    sendPath (sendCommandBytes path flags blockSize n ++ rest) = path.take (pathLen path) := by
  have hlen : (isrCommandSend :: IsrSendCommandHeader.bytes
      ⟨flags, pathLen path, blockSize, n⟩).length = 16 := by
    rw [List.length_cons, length_sendCommandHeader]
    rfl
  have hsplit : sendCommandBytes path flags blockSize n ++ rest =
      (isrCommandSend :: IsrSendCommandHeader.bytes ⟨flags, pathLen path, blockSize, n⟩) ++
        (path.take (pathLen path) ++ rest) := by
    simp [sendCommandBytes]
  rw [sendPath, sendHeader_sendCommandBytes, hsplit, List.drop_left' hlen]
  refine List.take_left' ?_
  rw [List.length_take, Nat.min_eq_left (pathLen_le path)]

theorem recvPath_recvCommandBytes :
    recvPath (recvCommandBytes path flags blockSize ++ rest) = path.take (pathLen path) := by
  have hlen : (isrCommandRecv :: IsrRecvCommandHeader.bytes
      ⟨flags, pathLen path, blockSize⟩).length = 8 := by
    rw [List.length_cons, length_recvCommandHeader]
    rfl
  have hsplit : recvCommandBytes path flags blockSize ++ rest =
      (isrCommandRecv :: IsrRecvCommandHeader.bytes ⟨flags, pathLen path, blockSize⟩) ++
        (path.take (pathLen path) ++ rest) := by
    simp [recvCommandBytes]
  rw [recvPath, recvHeader_recvCommandBytes, hsplit, List.drop_left' hlen]
  refine List.take_left' ?_
  rw [List.length_take, Nat.min_eq_left (pathLen_le path)]

/-- The server reads no further than the command. -/
theorem commandLength_sendCommandBytes :
    commandLength (sendCommandBytes path flags blockSize n ++ rest) ≤ 16 + pathLen path := by
  obtain ⟨-, h⟩ := commandLength_send (head_sendCommandBytes path flags blockSize n rest)
  have h16 : 16 ≤ (sendCommandBytes path flags blockSize n ++ rest).length := by
    rw [List.length_append, length_sendCommandBytes]
    omega
  obtain ⟨hlong, hshort⟩ := h h16
  rw [sendHeader_sendCommandBytes] at hlong hshort
  rcases Nat.lt_or_ge (pathLen path) isrPathMax with hlt | hge
  · rw [hshort hlt]
  · rw [hlong hge]
    omega

theorem commandLength_recvCommandBytes :
    commandLength (recvCommandBytes path flags blockSize ++ rest) ≤ 8 + pathLen path := by
  obtain ⟨-, h⟩ := commandLength_recv (head_recvCommandBytes path flags blockSize rest)
  have h8 : 8 ≤ (recvCommandBytes path flags blockSize ++ rest).length := by
    rw [List.length_append, length_recvCommandBytes]
    omega
  obtain ⟨hlong, hshort⟩ := h h8
  rw [recvHeader_recvCommandBytes] at hlong hshort
  rcases Nat.lt_or_ge (pathLen path) isrPathMax with hlt | hge
  · rw [hshort hlt]
  · rw [hlong hge]
    omega

end Views

end IsrTransfer
