import IsrTransfer.ServerRules

/-!
# Every complete request is answered

A client blocks until it has the reply it expects, so what the server owes it is a
number of messages: one reply to a SEND, and a second one after the data if the first
has accepted it; one confirmation to a RECV, and nothing but the confirmed stream after
it (`Replies`).

`requestAnswered_iff` says which requests get their replies, whatever the file system
and the faults.  Four exits of the handlers owe one: the path that is too long for the
buffer, the file that was accepted and then cannot be opened, and the listing that finds
no memory or cannot be opened.

## Complete requests

A client that stops in the middle of what it has to say has no claim to an answer.
`CompleteRequest` says what it has to say: the command, and then the data if they are asked for,
or a word about what has been offered.  What is asked for depends on the state in which the
command arrives, and on nothing that the server does in between.  The connection is one that
does not break.

## Both directions

That the replies are sent under the condition is shown by the rules for the handlers, one
obligation for each way they can go (`ensures_send_replies`, `ensures_recv_replies`).  That the
server comes to an end is shown with it: it never waits for more than has come, and its loops go
round no more often than there is something to receive or to read.

The condition speaks of faults, as something that may occur.  If one of the four exits is
possible, there is a run that takes it (`reaches_unopened`, `reaches_unlisted`), and at its end
the client has nothing, or an acceptance and nothing after it; neither is enough
(`not_replies_nil`, `not_replies_acceptance`).
-/

namespace IsrTransfer

open Effect Posix

variable {F : Faults} {lossy eof : Bool} {w : World}

/-! ## What the server owes

The debt is a predicate on the bytes that have come and the bytes that have gone out, so that it
can be read off the end of a run.  `RequestAnswered` says that a server that has returned has
paid, and that it returns. -/

/-- `bytes` is a message of `size` bytes and of the kind `t`. -/
def IsMessage (size : Nat) (t : UInt8) (bytes : List UInt8) : Prop :=
  bytes.length = size ∧ bytes.head? = some t

theorem isMessage_sendResponse (t : UInt8) (data : Option (List UInt8)) :
    IsMessage sizeofResponse t (sendResponse t data).bytes :=
  ⟨length_sendResponse t data, congrArg some (head_sendResponse t data)⟩

theorem isMessage_confirmation (t : UInt8) (n : Nat) :
    IsMessage sizeofRecvConfirmation t (confirmation t n) :=
  ⟨length_recvConfirmation _, rfl⟩

/-- A first reply of the kind `t` asks for the data. -/
def AsksData (flags t : UInt8) : Prop :=
  hasFlag flags isrFlagCreateDirectory = false ∧
    (t = isrSendResponseCreating ∨ t = isrSendResponseOverwriting)

/-- The replies to a SEND. -/
inductive SendReplies (flags : UInt8) : List UInt8 → Prop where
  | alone {t : UInt8} {first : List UInt8} : IsMessage sizeofResponse t first →
      ¬ AsksData flags t → SendReplies flags first
  | result {t u : UInt8} {first second : List UInt8} : IsMessage sizeofResponse t first →
      AsksData flags t → IsMessage sizeofResponse u second →
      u = isrResultOk ∨ u = isrResultChecksumBad ∨ u = isrResultOtherFailure →
      SendReplies flags (first ++ second)

/-- The replies to a RECV, when `answer` is what the client sends after the command. -/
inductive RecvReplies (answer : List UInt8) : List UInt8 → Prop where
  | alone {t : UInt8} {first : List UInt8} : IsMessage sizeofRecvConfirmation t first →
      RecvReplies answer first
  | stream {t go : UInt8} {rest first : List UInt8} (data : List UInt8) :
      IsMessage sizeofRecvConfirmation t first →
      t = isrRecvTypeFile ∨ t = isrRecvTypeDirectory →
      answer = go :: rest → go ≠ isrRecvUnable → RecvReplies answer (first ++ data)

/-- `tx` is what a client that has sent `input` is owed. -/
structure Replies (input tx : List UInt8) : Prop where
  send : input.head? = some isrCommandSend → SendReplies (sendHeader input).flags tx
  recv : input.head? = some isrCommandRecv →
    RecvReplies (input.drop (8 + (recvHeader input).pathLength)) tx

theorem not_replies_nil {input : List UInt8}
    (h : input.head? = some isrCommandSend ∨ input.head? = some isrCommandRecv) :
    ¬ Replies input [] := by
  have hlen : ∀ {size t bytes}, IsMessage size t bytes → 0 < size → bytes ≠ [] :=
    fun hm hpos hnil => by rw [hnil] at hm; exact absurd hm.1 (by simp; omega)
  intro hrep
  rcases h with hcmd | hcmd
  · generalize htx : ([] : List UInt8) = tx at hrep
    cases hrep.send hcmd with
    | alone hm => exact hlen hm (by decide) htx.symm
    | result hm => exact hlen hm (by decide) (List.append_eq_nil_iff.mp htx.symm).1
  · generalize htx : ([] : List UInt8) = tx at hrep
    cases hrep.recv hcmd with
    | alone hm => exact hlen hm (by decide) htx.symm
    | stream _ hm => exact hlen hm (by decide) (List.append_eq_nil_iff.mp htx.symm).1

/-- An acceptance is not enough. -/
theorem not_replies_acceptance {input : List UInt8} (hcmd : input.head? = some isrCommandSend)
    (hno : hasFlag (sendHeader input).flags isrFlagCreateDirectory = false) (present : Bool) :
    ¬ Replies input (acceptance present) := by
  have hkind : ∀ t, (acceptance present).head? = some t → AsksData (sendHeader input).flags t := by
    intro t ht
    refine ⟨hno, ?_⟩
    have hhead := (isMessage_sendResponse (if present then isrSendResponseOverwriting
      else isrSendResponseCreating) none).2
    obtain rfl := Option.some.inj (hhead.symm.trans ht)
    cases present
    · exact Or.inl rfl
    · exact Or.inr rfl
  have hlen : (acceptance present).length = sizeofResponse := length_sendResponse _ _
  intro hrep
  generalize acceptance present = tx at hrep hkind hlen
  cases hrep.send hcmd with
  | alone hm hnot => exact hnot (hkind _ hm.2)
  | result hm _ hm' =>
    rw [List.length_append, hm.1, hm'.1] at hlen
    exact absurd hlen (by decide)

/-- The server would offer what is at this path. -/
def Offers (s : Sys) (root path : List UInt8) : Prop :=
  isrValidatePath path ≠ -1 ∧ ∃ full, resolvedPath s root path isrPathMax = some full ∧
    ∃ isDir size, s.StatStep full (some (isDir, size))

/-- The stream of a client that has sent a complete command and then what the protocol
asks of it: the data of a file that is accepted, an answer to what is offered. -/
structure CompleteRequest (L : Lz4) (s : Sys) (root input : List UInt8) : Prop where
  command : (input.head? = some isrCommandSend ∧
      16 + (sendHeader input).pathLength ≤ input.length) ∨
    (input.head? = some isrCommandRecv ∧ 8 + (recvHeader input).pathLength ≤ input.length)
  data : input.head? = some isrCommandSend → (sendHeader input).pathLength < isrPathMax →
    Accepts s root (sendHeader input).flags (cstr (sendPath input)) →
    ¬ Incomplete L (sendHeader input).flags (sendHeader input).uncompressedBlockSize
      (sendHeader input).effectiveLength (input.drop (16 + (sendHeader input).pathLength))
  answer : input.head? = some isrCommandRecv → (recvHeader input).pathLength < isrPathMax →
    Offers s root (cstr (recvPath input)) → 8 + (recvHeader input).pathLength < input.length

/-- The server comes to an end, if its loops may go round often enough, and then the
client has the replies it is owed. -/
def RequestAnswered (L : Lz4) (F : Faults) (s : Sys) (root input : List UInt8) : Prop :=
  ∀ eof, ∃ rounds, ∀ fuel, rounds ≤ fuel →
    Terminates (machine F false eof) (serveConnection L fuel root)
      (fun _ v => Replies input v.tx) (Proc.start s input)

/-- The file at `full` can be opened for writing when its parent directories have been
made as far as possible. -/
def CanOpen (F : Faults) (s : Sys) (full : List UInt8) : Prop :=
  F.opens = false ∧ ∀ s', Mkdirs F s (parentTargets full) s' → (s'.openWrite full).1 ≠ none

/-- When a request is answered: the path fits in the buffer, a file that is accepted can
be opened, and so can a directory that is listed, and there is memory for its entries. -/
structure AnsweredWhen (F : Faults) (s : Sys) (root input : List UInt8) : Prop where
  sendFits : input.head? = some isrCommandSend → (sendHeader input).pathLength < isrPathMax
  recvFits : input.head? = some isrCommandRecv → (recvHeader input).pathLength < isrPathMax
  opens : input.head? = some isrCommandSend →
    Accepts s root (sendHeader input).flags (cstr (sendPath input)) →
    ∀ full, resolvedPath s root (cstr (sendPath input)) isrPathMax = some full → CanOpen F s full
  lists : input.head? = some isrCommandRecv → isrValidatePath (cstr (recvPath input)) ≠ -1 →
    ∀ full size, resolvedPath s root (cstr (recvPath input)) isrPathMax = some full →
      s.StatStep full (some (true, size)) → F.alloc = false ∧ F.opens = false

/-! ## The replies that are sent

With the condition every branch of the two handlers comes to one of the exits that sends the
reply.  The lemmas go through them from the inside out: the data, the check of the path, the
command. -/

section Sent

variable {L : Lz4} {s : Sys} {root input : List UInt8} {fuel : Nat}

theorem isMessage_resultBytes (result : Int) : ∃ u,
    IsMessage sizeofResponse u (resultBytes result) ∧
      (u = isrResultOk ∨ u = isrResultChecksumBad ∨ u = isrResultOtherFailure) := by
  refine ⟨_, isMessage_sendResponse _ _, ?_⟩
  split
  · exact Or.inr (Or.inr rfl)
  · split
    · exact Or.inr (Or.inl rfl)
    · exact Or.inl rfl

/-- Whoever sends a whole message on a connection that does not break has sent it. -/
theorem eq_sent_of_sends {data : List UInt8} {v : World} (h : Sends false w data v) :
    v = w.sent data :=
  h.resolve_right fun hl => absurd hl.1 (by decide)

theorem sendReplies_refusal {flags : UInt8} {message : String} {v : World} (hw : w.tx = [])
    (h : Sends false w (refusal message) v) : SendReplies flags v.tx := by
  rw [eq_sent_of_sends h, Proc.sent_tx, hw, List.nil_append]
  exact .alone (isMessage_sendResponse _ _) fun ⟨_, hkind⟩ => absurd hkind (by decide)

theorem recvReplies_confirmation {answer : List UInt8} {t : UInt8} {n : Nat} {v : World}
    (hw : w.tx = []) (h : Sends false w (confirmation t n) v) : RecvReplies answer v.tx := by
  rw [eq_sent_of_sends h, Proc.sent_tx, hw, List.nil_append]
  exact .alone (isMessage_confirmation t n)

/-- A file that is accepted and can be opened is received, and the result reported. -/
theorem acceptCases_replies {header : IsrSendCommandHeader} {full : List UInt8} (present : Bool)
    (hw : w.tx = []) (hno : hasFlag header.flags isrFlagCreateDirectory = false)
    (hopen : CanOpen F w.sys full)
    (hdata : ¬ Incomplete L header.flags header.uncompressedBlockSize header.effectiveLength w.rx)
    (hfuel : w.rx.length < fuel) :
    AcceptCases F false eof (Answered (machine F false eof)) L fuel header full present
      (fun _ v => SendReplies header.flags v.tx) w := by
  have hP := permits_answered F false eof
  constructor
  · exact fun _ p _ _ _ _ => answered_mkdir p
  · exact fun _ _ => answered_openWrite full
  · exact fun _ _ _ hl => absurd hl (by decide)
  · intro s hs hfail
    rcases hfail with hnone | hopens
    · exact absurd hnone (hopen.2 s hs)
    · exact absurd hopens (by simp [hopen.1])
  · intro s fd s' _ _
    refine ensures_receiveFile_outline hP (fun data k room len hpos hinc => ?_)
      (fun hle => absurd hfuel (Nat.not_lt.mpr hle)) fun r data k u hu => ?_
    · exact answered_recv hpos (Or.inl fun hnil => hdata (hinc hnil))
    · obtain ⟨kind, hsecond, hkind⟩ := isMessage_resultBytes r
      rw [eq_sent_of_sends hu, Proc.sent_tx, taken_tx, Proc.sent_tx, Proc.withSys_tx, hw,
        List.nil_append]
      refine .result (isMessage_sendResponse _ _) ⟨hno, ?_⟩ hsecond hkind
      cases present
      · exact Or.inl rfl
      · exact Or.inr rfl

theorem ensures_send_replies {path : List UInt8} {header : IsrSendCommandHeader}
    (hw : w.tx = [])
    (hopen : Accepts w.sys root header.flags path →
      ∀ full, resolvedPath w.sys root path isrPathMax = some full → CanOpen F w.sys full)
    (hdata : Accepts w.sys root header.flags path →
      ¬ Incomplete L header.flags header.uncompressedBlockSize header.effectiveLength w.rx)
    (hfuel : w.rx.length < fuel) :
    Terminates (machine F false eof) (isrReceiveSendCommand L fuel root header path)
      (fun _ v => SendReplies header.flags v.tx) w := by
  refine ensures_isrReceiveSendCommand (permits_answered F false eof)
    (fun _ p => answered_realpath p) (fun _ v hv => sendReplies_refusal hw hv)
    (fun _ _ v hv => sendReplies_refusal hw hv) fun hvalid full hfull => ?_
  have haccept : ∀ present, Accepts w.sys root header.flags path →
      AcceptCases F false eof (Answered (machine F false eof)) L fuel header full present
        (fun _ v => SendReplies header.flags v.tx) w := fun present hacc =>
    acceptCases_replies present hw hacc.2.1 (hopen hacc full hfull) (hdata hacc) hfuel
  constructor
  · exact fun _ _ p _ _ _ _ => answered_mkdir p
  · intro hflag _ _ s r s' v _ _ _ hv
    by_cases hfail : r = .failed
    · rw [mkdirReply, if_pos hfail] at hv
      exact sendReplies_refusal (w := w.withSys s') hw hv
    · rw [mkdirReply, if_neg hfail] at hv
      rw [eq_sent_of_sends hv, Proc.sent_tx, Proc.withSys_tx, hw, List.nil_append]
      exact .alone (isMessage_sendResponse _ _) fun hasks => absurd hasks.1 (by simp [hflag])
  · exact fun _ => answered_stat full
  · exact fun _ _ v _ hv => sendReplies_refusal hw hv
  · exact fun _ _ v _ _ hv => sendReplies_refusal hw hv
  · exact fun hno hstat => haccept false ⟨hvalid, hno, full, hfull, Or.inl hstat⟩
  · exact fun hno size hstat hover =>
      haccept true ⟨hvalid, hno, full, hfull, Or.inr ⟨hover, size, hstat⟩⟩

/-- How often the loop over a file that is served may go round. -/
def servedRounds (s : Sys) (root path : List UInt8) : Nat :=
  (resolvedPath s root path isrPathMax).elim 0 fun full =>
    (s.openRead full).1.elim 0 (readsLeft (s.openRead full).2)

theorem ensures_recv_replies {path : List UInt8} {header : IsrRecvCommandHeader}
    (hw : w.tx = [])
    (hlists : isrValidatePath path ≠ -1 → ∀ full size,
      resolvedPath w.sys root path isrPathMax = some full →
      w.sys.StatStep full (some (true, size)) → F.alloc = false ∧ F.opens = false)
    (hanswer : Offers w.sys root path → w.rx ≠ [])
    (hfuel : servedRounds w.sys root path < fuel) :
    Terminates (machine F false eof) (isrReceiveRecvCommand L fuel root header path)
      (fun _ v => RecvReplies w.rx v.tx) w := by
  have hP := permits_answered F false eof
  have hsent : ∀ {t n}, (w.sent (confirmation t n)).tx = confirmation t n := fun {t n} => by
    rw [Proc.sent_tx, hw, List.nil_append]
  refine ensures_isrReceiveRecvCommand hP (fun _ p => answered_realpath p)
    (fun _ v hv => recvReplies_confirmation hw hv) (fun _ full _ => answered_stat full)
    (fun _ _ _ _ v hv => recvReplies_confirmation hw hv) (fun hvalid full size hfull hstat => ?_)
    fun hvalid full size hfull hstat => ?_
  · -- a directory is listed
    have hne := hanswer ⟨hvalid, full, hfull, true, size, hstat⟩
    obtain ⟨halloc, hopens⟩ := hlists hvalid full size hfull hstat
    refine ensures_isrTransmitRecvDirectoryListing hP ?_
    constructor
    · exact answered_opendir full
    · exact fun p => answered_stat p
    · intro hfail
      rcases hfail with hf | hf | hf
      · exact absurd hf (by simp [halloc])
      · exact absurd hf (by simp [hopens])
      · obtain ⟨l, hl, hdir⟩ := Sys.statStep_dir hstat
        simp [Sys.OpendirStep, hl, hdir] at hf
    · exact fun _ _ hl => absurd hl (by decide)
    · exact fun _ => answered_recv (by decide) (Or.inl hne)
    · exact fun _ hl => absurd hl (by simp [hne])
    · intro n rest _
      rw [Proc.sent_tx, Proc.received_tx, hw, List.nil_append]
      exact .alone (isMessage_confirmation _ n)
    · intro _ es go rest _ _ hrx hgo
      rw [Proc.sent_tx, Proc.received_tx, hw, List.nil_append]
      exact .stream _ (isMessage_confirmation _ _) (Or.inr rfl) hrx hgo
    · exact fun _ _ _ _ hl => absurd hl (by decide)
  · -- a file is served
    have hne := hanswer ⟨hvalid, full, hfull, false, size, hstat⟩
    constructor
    · exact fun _ hl => absurd hl (by decide)
    · exact answered_recv (by decide) (Or.inl hne)
    · exact fun hl => absurd hl (by simp [hne])
    · intro rest _
      rw [Proc.received_tx, hsent]
      exact .alone (isMessage_confirmation _ _)
    · exact fun _ _ _ _ => answered_openRead full
    · intro go rest _ _ _
      rw [Proc.received_tx, hsent]
      exact .alone (isMessage_confirmation _ _)
    · intro go rest fd s hrx hgo hopen
      have hrounds : servedRounds w.sys root path = readsLeft s fd := by
        rw [servedRounds, hfull, Option.elim_some, hopen, Option.elim_some]
      refine ensures_transmitFile_outline hP (fun hle => ?_) fun r s' data _ => ?_
      · exact absurd hfuel (Nat.not_lt.mpr (hrounds ▸ hle))
      · rw [Proc.sent_tx, Proc.withSys_tx, Proc.sent_tx, Proc.received_tx, Proc.withSys_tx, hw,
          List.nil_append]
        exact .stream _ (isMessage_confirmation _ _) (Or.inl rfl) hrx hgo

/-- A complete command is read whole, unless its path is too long. -/
theorem CompleteRequest.readCases (hin : CompleteRequest L s root input)
    {Q : Option Command → World → Prop}
    (hlong : ∀ k, (input.head? = some isrCommandSend ∧ isrPathMax ≤ (sendHeader input).pathLength ∨
      input.head? = some isrCommandRecv ∧ isrPathMax ≤ (recvHeader input).pathLength) →
      Q none ((Proc.start s input).received k))
    (hsend : input.head? = some isrCommandSend → (sendHeader input).pathLength < isrPathMax →
      Q (some (.send (sendHeader input) (cstr (sendPath input))))
        ((Proc.start s input).received (16 + (sendHeader input).pathLength)))
    (hrecv : input.head? = some isrCommandRecv → (recvHeader input).pathLength < isrPathMax →
      Q (some (.recv (recvHeader input) (cstr (recvPath input))))
        ((Proc.start s input).received (8 + (recvHeader input).pathLength))) :
    ReadCases false eof (Answered (machine F false eof)) Q (Proc.start s input) := by
  have hle : commandLength input ≤ input.length := by
    rcases hin.command with ⟨hcmd, hlen⟩ | ⟨hcmd, hlen⟩
    · obtain ⟨hlong, hshort⟩ := (commandLength_send hcmd).2 (by omega)
      rcases Nat.lt_or_ge (sendHeader input).pathLength isrPathMax with hfits | hfits
      · rwa [hshort hfits]
      · rw [hlong hfits]
        omega
    · obtain ⟨hlong, hshort⟩ := (commandLength_recv hcmd).2 (by omega)
      rcases Nat.lt_or_ge (recvHeader input).pathLength isrPathMax with hfits | hfits
      · rwa [hshort hfits]
      · rw [hlong hfits]
        omega
  constructor
  · exact fun k room len _ hpos _ hk => answered_recv_within hpos (hk.trans hle)
  · intro k _ hshort hl
    rcases hl with hl | ⟨-, hl⟩
    · exact absurd hl (by decide)
    · rw [Proc.start_rx] at hl hshort
      omega
  · exact fun k _ _ h => hlong k h
  · intro cmd rest hrx hno hno'
    rw [Proc.start_rx] at hrx
    rcases hin.command with ⟨hcmd, -⟩ | ⟨hcmd, -⟩
    · rw [hrx] at hcmd
      exact absurd (Option.some.inj hcmd) hno
    · rw [hrx] at hcmd
      exact absurd (Option.some.inj hcmd) hno'
  · exact fun hcmd hfits _ => hsend hcmd hfits
  · exact fun hcmd hfits _ => hrecv hcmd hfits

theorem send_ne_recv (hsend : input.head? = some isrCommandSend)
    (hrecv : input.head? = some isrCommandRecv) : False :=
  absurd (Option.some.inj (hsend.symm.trans hrecv)) (by decide)

/-- Every complete request is answered, under the condition. -/
theorem AnsweredWhen.requestAnswered (hin : CompleteRequest L s root input)
    (h : AnsweredWhen F s root input) : RequestAnswered L F s root input := by
  intro eof
  refine ⟨input.length + servedRounds s root (cstr (recvPath input)) + 1, fun fuel hfuel => ?_⟩
  have hP := permits_answered F false eof
  refine ensures_serveConnection hP ?_
  rw [isrReceiveCommand_eq, ensures_bind]
  refine ensures_isrReadCommand hP (hin.readCases ?_ ?_ ?_)
  · rintro _ (⟨hcmd, hlong⟩ | ⟨hcmd, hlong⟩)
    · exact absurd (h.sendFits hcmd) (Nat.not_lt.mpr hlong)
    · exact absurd (h.recvFits hcmd) (Nat.not_lt.mpr hlong)
  · intro hcmd hfits
    have hlen : (input.drop (16 + (sendHeader input).pathLength)).length < fuel := by
      rw [List.length_drop]
      omega
    have hrun := @ensures_send_replies F eof
      ((Proc.start s input).received (16 + (sendHeader input).pathLength)) L root fuel
      (cstr (sendPath input)) (sendHeader input) rfl (h.opens hcmd) (hin.data hcmd hfits) hlen
    exact hrun.mono fun r v hv => ⟨fun _ => hv, fun hcmd' => (send_ne_recv hcmd hcmd').elim⟩
  · intro hcmd hfits
    have hanswer : Offers s root (cstr (recvPath input)) →
        input.drop (8 + (recvHeader input).pathLength) ≠ [] := by
      intro hoffer hnil
      have hlt := hin.answer hcmd hfits hoffer
      exact absurd hlt (Nat.not_lt.mpr (List.drop_eq_nil_iff.mp hnil))
    have hrounds : servedRounds s root (cstr (recvPath input)) < fuel := by omega
    have hrun := @ensures_recv_replies F eof
      ((Proc.start s input).received (8 + (recvHeader input).pathLength)) L root fuel
      (cstr (recvPath input)) (recvHeader input) rfl (h.lists hcmd) hanswer hrounds
    exact hrun.mono fun r v hv => ⟨fun hcmd' => (send_ne_recv hcmd' hcmd).elim, fun _ => hv⟩

end Sent

/-! ## The replies that are not sent

There are four exits without the reply that is due: the path is too long, a file that has been
accepted cannot be opened, a directory cannot be listed, and there is no memory for its entries.
When the condition fails one of them is on a run. -/

section Owed

variable {L : Lz4} {s : Sys} {root input : List UInt8} {fuel : Nat}

/-- A file that cannot be opened is accepted all the same. -/
theorem reaches_acceptFile {header : IsrSendCommandHeader} {full : List UInt8} (present : Bool)
    (hs : Mkdirs F w.sys (parentTargets full) s)
    (hfail : F.opens ∨ (s.openWrite full).1 = none) :
    Reaches (machine F false eof) (acceptFile L fuel header full present) w (.ret (-1))
      ((w.withSys s).sent (acceptance present)) := by
  -- from the reply on
  have htail : ∀ u : World, Reaches (machine F false eof)
      (replyAndReceive L fuel header full present) (u.withSys s) (.ret (-1))
      ((u.withSys s).sent (acceptance present)) := by
    intro u
    have hterm : Terminates (machine F false eof) (isrTransmitSendResponse
        (if present then isrSendResponseOverwriting else isrSendResponseCreating) none)
        (fun r v => r = 0 ∧ v = (u.withSys s).sent (acceptance present)) (u.withSys s) :=
      ensures_isrTransmitSendResponse (permits_answered F false eof) ⟨rfl, rfl⟩
        fun hl => absurd hl (by decide)
    obtain ⟨r, v, hrun, rfl, rfl⟩ := hterm.exists_ret
    refine (hrun.bind _).trans ?_
    rw [Program.ret_bind, if_neg (by decide)]
    refine .step (r := none) ⟨s, ?_, rfl⟩ (.refl _ _)
    rcases hfail with hf | hnone
    · exact Or.inr ⟨hf, rfl, rfl⟩
    · exact Or.inl (Prod.ext hnone.symm (Sys.openWrite_none hnone).symm)
  unfold parentTargets at hs
  cases hparent : isrParentDir full isrPathMax with
  | none =>
    rw [hparent] at hs
    cases hs
    rw [acceptFile_of_none hparent]
    exact htail w
  | some parent =>
    rw [hparent] at hs
    rw [acceptFile_of_some hparent]
    obtain ⟨r, hrun⟩ := reaches_isrMkdirRecursive' hs
    exact (hrun.bind _).trans (htail w)

theorem reaches_isrResolvePath {path : List UInt8} :
    Reaches (machine F false eof) (isrResolvePath root path isrPathMax) w
      (.ret (resolvedPath w.sys root path isrPathMax)) w := by
  have hterm : Terminates (machine F false eof) (isrResolvePath root path isrPathMax)
      (fun r v => r = resolvedPath w.sys root path isrPathMax ∧ v = w) w :=
    ensures_isrResolvePath (fun p => answered_realpath p) ⟨rfl, rfl⟩
  obtain ⟨r, v, hrun, rfl, rfl⟩ := hterm.exists_ret
  exact hrun

/-- A handler goes on with the path that it has got. -/
theorem reaches_resolved {path full : List UInt8}
    (hfull : resolvedPath w.sys root path isrPathMax = some full)
    (f : Option (List UInt8) → Prog Int) :
    Reaches (machine F false eof) ((isrResolvePath root path isrPathMax).bind f) w
      (f (some full)) w := by
  rw [← hfull]
  exact reaches_isrResolvePath.bind f

/-- The exit of a SEND that owes the result. -/
theorem reaches_unopened {path : List UInt8} {header : IsrSendCommandHeader} {full : List UInt8}
    (hacc : Accepts w.sys root header.flags path)
    (hfull : resolvedPath w.sys root path isrPathMax = some full)
    (hs : Mkdirs F w.sys (parentTargets full) s) (hfail : F.opens ∨ (s.openWrite full).1 = none) :
    ∃ present, Reaches (machine F false eof) (isrReceiveSendCommand L fuel root header path) w
      (.ret (-1)) ((w.withSys s).sent (acceptance present)) := by
  obtain ⟨hvalid, hno, full', hfull', hstat⟩ := hacc
  obtain rfl : full' = full := Option.some.inj (hfull'.symm.trans hfull)
  have hno' : ¬ hasFlag header.flags isrFlagCreateDirectory = true := by simp [hno]
  unfold isrReceiveSendCommand
  rw [if_neg hvalid]
  rcases hstat with hstat | ⟨hover, size, hstat⟩
  · refine ⟨false, (reaches_resolved hfull _).trans ?_⟩
    simp only [if_neg hno']
    exact .step (r := none) ⟨w.sys, ⟨hstat, rfl⟩, rfl⟩ (reaches_acceptFile false hs hfail)
  · refine ⟨true, (reaches_resolved hfull _).trans ?_⟩
    have hover' : ¬ hasFlag header.flags isrFlagOverwrite = false := by simp [hover]
    simp only [if_neg hno']
    refine .step (r := some (false, size)) ⟨w.sys, ⟨hstat, rfl⟩, rfl⟩ ?_
    change Reaches _ (if hasFlag header.flags isrFlagOverwrite = false then _ else _) _ _ _
    rw [if_neg hover']
    exact reaches_acceptFile true hs hfail

/-- The exits of a listing that owe the confirmation. -/
theorem reaches_unlisted {path : List UInt8} {header : IsrRecvCommandHeader} {full : List UInt8}
    {size : Nat} (hvalid : isrValidatePath path ≠ -1)
    (hfull : resolvedPath w.sys root path isrPathMax = some full)
    (hstat : w.sys.StatStep full (some (true, size))) (hfail : F.alloc ∨ F.opens) :
    Reaches (machine F false eof) (isrReceiveRecvCommand L fuel root header path) w (.ret (-1))
      w := by
  have hlisting : Reaches (machine F false eof) (isrTransmitRecvDirectoryListing full) w
      (.ret (-1)) w := by
    unfold isrTransmitRecvDirectoryListing
    rcases hfail with halloc | hopens
    · exact .step (r := false) ⟨w.sys, ⟨Or.inr halloc, rfl⟩, rfl⟩ (.refl _ _)
    · refine .step (r := true) ⟨w.sys, ⟨Or.inl rfl, rfl⟩, rfl⟩ ?_
      exact .step (r := none) ⟨w.sys, ⟨Or.inr ⟨hopens, rfl⟩, rfl⟩, rfl⟩ (.refl _ _)
  unfold isrReceiveRecvCommand
  rw [if_neg hvalid]
  refine (reaches_resolved hfull _).trans ?_
  exact .step (r := some (true, size)) ⟨w.sys, ⟨hstat, rfl⟩, rfl⟩ hlisting

/-- A command that has been read is handled, and the connection closed. -/
theorem reaches_serveConnection {c : Option Command} {u v : World} {r : Int}
    (hread : Reaches (machine F false eof) isrReadCommand w (.ret c) u)
    (hrun : Reaches (machine F false eof) (handleCommand L fuel root c) u (.ret r) v) :
    Reaches (machine F false eof) (serveConnection L fuel root) w (.ret r) v := by
  have hcommand : Reaches (machine F false eof) (isrReadCommand.bind (handleCommand L fuel root)) w
      (.ret r) v := (hread.bind _).trans hrun
  unfold serveConnection
  rw [isrReceiveCommand_eq]
  exact (hcommand.bind _).trans (.step (r := ()) rfl (.refl _ _))

/-- What `isr_receive_command` makes of a complete command. -/
def commandOf (input : List UInt8) : Option Command :=
  if input.head? = some isrCommandSend then
    if (sendHeader input).pathLength < isrPathMax then
      some (.send (sendHeader input) (cstr (sendPath input)))
    else none
  else if (recvHeader input).pathLength < isrPathMax then
    some (.recv (recvHeader input) (cstr (recvPath input)))
  else none

theorem CompleteRequest.reaches_isrReadCommand (hin : CompleteRequest L s root input) : ∃ k,
    Reaches (machine F false eof) isrReadCommand (Proc.start s input) (.ret (commandOf input))
      ((Proc.start s input).received k) := by
  have hterm : Terminates (machine F false eof) isrReadCommand
      (fun c v => c = commandOf input ∧ ∃ k, v = (Proc.start s input).received k)
      (Proc.start s input) := by
    refine ensures_isrReadCommand (permits_answered F false eof) (hin.readCases ?_ ?_ ?_)
    · intro k hlong
      refine ⟨?_, k, rfl⟩
      unfold commandOf
      rcases hlong with ⟨hcmd, hlong⟩ | ⟨hcmd, hlong⟩
      · rw [if_pos hcmd, if_neg (Nat.not_lt.mpr hlong)]
      · rw [if_neg fun hcmd' => send_ne_recv hcmd' hcmd, if_neg (Nat.not_lt.mpr hlong)]
    · intro hcmd hfits
      refine ⟨?_, _, rfl⟩
      rw [commandOf, if_pos hcmd, if_pos hfits]
    · intro hcmd hfits
      refine ⟨?_, _, rfl⟩
      rw [commandOf, if_neg fun hcmd' => send_ne_recv hcmd' hcmd, if_pos hfits]
  obtain ⟨c, v, hrun, rfl, k, rfl⟩ := hterm.exists_ret
  exact ⟨k, hrun⟩

/-- A request that is answered meets the condition: each of the four exits has a run. -/
theorem RequestAnswered.answeredWhen (hin : CompleteRequest L s root input)
    (h : RequestAnswered L F s root input) : AnsweredWhen F s root input := by
  obtain ⟨fuel, hfuel⟩ := h false
  obtain ⟨k, hread⟩ := @CompleteRequest.reaches_isrReadCommand F false L s root input hin
  have hreplies : ∀ {r v}, Reaches (machine F false false) (handleCommand L fuel root
      (commandOf input)) ((Proc.start s input).received k) (.ret r) v → Replies input v.tx :=
    fun hrun => (hfuel fuel (Nat.le_refl _)).of_reaches (reaches_serveConnection hread hrun)
  -- a command whose path is too long gets no reply
  have hnone : commandOf input ≠ none := by
    intro hc
    rw [hc] at hreplies
    refine not_replies_nil ?_ (hreplies (.refl _ _))
    exact hin.command.imp And.left And.left
  have hsendFits : input.head? = some isrCommandSend →
      (sendHeader input).pathLength < isrPathMax := by
    intro hcmd
    by_contra hlong
    exact hnone (by rw [commandOf, if_pos hcmd, if_neg hlong])
  have hrecvFits : input.head? = some isrCommandRecv →
      (recvHeader input).pathLength < isrPathMax := by
    intro hcmd
    by_contra hlong
    exact hnone (by rw [commandOf, if_neg fun hcmd' => send_ne_recv hcmd' hcmd, if_neg hlong])
  refine ⟨hsendFits, hrecvFits, fun hcmd hacc full hfull => ?_,
    fun hcmd hvalid full size hfull hstat => ?_⟩
  · -- a file that is accepted
    rw [commandOf, if_pos hcmd, if_pos (hsendFits hcmd)] at hreplies
    have hopened : ∀ s', Mkdirs F s (parentTargets full) s' →
        ¬ (F.opens ∨ (s'.openWrite full).1 = none) := by
      intro s' hs' hfail
      obtain ⟨present, hrun⟩ := @reaches_unopened F false ((Proc.start s input).received k) L s'
        root fuel _ _ _ hacc hfull hs' hfail
      exact not_replies_acceptance hcmd hacc.2.1 present (hreplies hrun)
    obtain ⟨s', hs'⟩ := exists_mkdirs F s (parentTargets full)
    refine ⟨?_, fun s'' hs'' hnone => hopened s'' hs'' (Or.inr hnone)⟩
    exact Bool.eq_false_iff.mpr fun hf => hopened s' hs' (Or.inl hf)
  · -- a directory that is listed
    rw [commandOf, if_neg fun hcmd' => send_ne_recv hcmd' hcmd, if_pos (hrecvFits hcmd)] at hreplies
    have hlisted : ¬ (F.alloc ∨ F.opens) := by
      intro hfail
      have hrun := @reaches_unlisted F false ((Proc.start s input).received k) L root fuel _
        (recvHeader input) _ _ hvalid hfull hstat hfail
      exact not_replies_nil (Or.inr hcmd) (hreplies hrun)
    rw [not_or] at hlisted
    exact ⟨Bool.eq_false_iff.mpr hlisted.1, Bool.eq_false_iff.mpr hlisted.2⟩

end Owed

/-! ## Exactly when -/

/-- **Every complete request is answered**, exactly if its path fits in the buffer, the file
that is accepted can be opened once its parent directories have been made, and a directory
that is listed can be opened and finds the memory it needs. -/
theorem requestAnswered_iff (L : Lz4) (F : Faults) (s : Sys) (root input : List UInt8)
    (h : CompleteRequest L s root input) :
    RequestAnswered L F s root input ↔ AnsweredWhen F s root input :=
  ⟨RequestAnswered.answeredWhen h, AnsweredWhen.requestAnswered h⟩

/-- A file of one byte that is sent to an empty directory. -/
theorem requestAnswered_newFile :
    RequestAnswered shortLz4 Faults.none (.initial .empty) [slash]
      (sendCommandBytes [0x66] 0 1 1 ++ plainStream [7]) := by
  have hcmd : (sendCommandBytes [0x66] 0 1 1 ++ plainStream [7]).head? = some isrCommandSend := rfl
  have hin : CompleteRequest shortLz4 (.initial .empty) [slash]
      (sendCommandBytes [0x66] 0 1 1 ++ plainStream [7]) := by
    refine ⟨Or.inl ⟨hcmd, by decide⟩, fun _ _ _ => ?_, fun hcmd' => (send_ne_recv hcmd hcmd').elim⟩
    unfold Incomplete
    rw [if_neg (by decide)]
    decide
  refine (requestAnswered_iff shortLz4 Faults.none _ _ _ hin).mpr ?_
  refine ⟨fun _ => by decide, fun hcmd' => (send_ne_recv hcmd hcmd').elim, fun _ _ full hfull => ?_,
    fun hcmd' => (send_ne_recv hcmd hcmd').elim⟩
  obtain rfl : full = [slash, slash, 0x66] := Option.some.inj (hfull.symm.trans (by decide +kernel))
  refine ⟨rfl, fun s' hs' => ?_⟩
  have htargets : parentTargets [slash, slash, 0x66] = [[slash]] := by decide
  rw [htargets] at hs'
  cases hs' with
  | cons hstep hnil =>
    cases hnil
    rcases hstep with hmkdir | ⟨hf, -⟩
    · have hsame : s' = .initial .empty := (congrArg Prod.snd hmkdir).trans (by rfl)
      rw [hsame]
      decide +kernel
    · exact absurd hf (by decide)

/-- A path of 4096 bytes; and a file that is accepted below a regular file, where it cannot
be made. -/
theorem requestAnswered_owed :
    (CompleteRequest shortLz4 (.initial .empty) [slash]
        (recvCommandBytes (List.replicate isrPathMax 0x66) 0 1) ∧
      ¬ RequestAnswered shortLz4 Faults.none (.initial .empty) [slash]
        (recvCommandBytes (List.replicate isrPathMax 0x66) 0 1)) ∧
    (CompleteRequest shortLz4 (.initial (FS.empty.makeFile [[0x66]])) [slash]
        (sendCommandBytes [0x66, slash, 0x78] 0 1 1 ++ plainStream [7]) ∧
      ¬ RequestAnswered shortLz4 Faults.none (.initial (FS.empty.makeFile [[0x66]])) [slash]
        (sendCommandBytes [0x66, slash, 0x78] 0 1 1 ++ plainStream [7])) := by
  constructor
  · have hcmd : (recvCommandBytes (List.replicate isrPathMax 0x66) 0 1).head? =
        some isrCommandRecv := rfl
    have hlong : isrPathMax ≤
        (recvHeader (recvCommandBytes (List.replicate isrPathMax 0x66) 0 1)).pathLength := by
      decide +kernel
    have hin : CompleteRequest shortLz4 (.initial .empty) [slash]
        (recvCommandBytes (List.replicate isrPathMax 0x66) 0 1) :=
      ⟨Or.inr ⟨hcmd, by decide +kernel⟩, fun hcmd' => (send_ne_recv hcmd' hcmd).elim,
        fun _ hfits => absurd hfits (Nat.not_lt.mpr hlong)⟩
    refine ⟨hin, fun h => ?_⟩
    exact absurd ((h.answeredWhen hin).recvFits hcmd) (Nat.not_lt.mpr hlong)
  · have hcmd : (sendCommandBytes [0x66, slash, 0x78] 0 1 1 ++ plainStream [7]).head? =
        some isrCommandSend := rfl
    have hin : CompleteRequest shortLz4 (.initial (FS.empty.makeFile [[0x66]])) [slash]
        (sendCommandBytes [0x66, slash, 0x78] 0 1 1 ++ plainStream [7]) := by
      refine ⟨Or.inl ⟨hcmd, by decide⟩, fun _ _ _ => ?_,
        fun hcmd' => (send_ne_recv hcmd hcmd').elim⟩
      unfold Incomplete
      rw [if_neg (by decide)]
      decide
    refine ⟨hin, fun h => ?_⟩
    have hfull : resolvedPath (.initial (FS.empty.makeFile [[0x66]])) [slash]
        [0x66, slash, 0x78] isrPathMax = some [slash, 0x66, slash, 0x78] := by decide +kernel
    have hstat := Sys.statStep_answer (.initial (FS.empty.makeFile [[0x66]]))
      [slash, 0x66, slash, 0x78]
    rw [show Sys.statAnswer (.initial (FS.empty.makeFile [[0x66]])) [slash, 0x66, slash, 0x78] =
      none by decide +kernel] at hstat
    obtain ⟨-, hopen⟩ := (h.answeredWhen hin).opens hcmd
      ⟨by decide, by decide, _, hfull, Or.inl hstat⟩ _ hfull
    refine hopen _ (.cons (Or.inl rfl) (.nil _)) ?_
    decide +kernel

end IsrTransfer
