import IsrTransfer.Effect.Caller
import IsrTransfer.FaultyStreams
import IsrTransfer.MkdirRecursive
import IsrTransfer.TouchedFiles
import IsrTransfer.TreeServer

/-!
# Connections with a SEND

An upload is made of operations with one connection each.  Here is what goes over such a
connection, and what each side makes of it, whatever fails: the client has sent a beginning of
its command, or the command and something more, and it returns `0` only if the second reply
confirms a file that has been sent as a whole, or the first one a directory (`SentCall`).  The
server has done nothing if it has not got all of the command; otherwise it has opened no file
and gives one reply at most, or it has written to the file that the path leads to
(`SendEnd`), and a confirmation means that it has taken all of it.

## Why a confirmation is enough

A read of the client may fail, and an allocation on either side, and the connection may break.
What counts is the last reply.  If it is a confirmation, the receiver has not failed, and so it
has got as many bytes as were announced, and a checksum; what it got was sent by the client, and
so it is the file and nothing else (`SendEnd.stored`, by `FaultyStreams`).  The client announces
what `stat` has told it, and the file does not change while it is sent.

A directory is confirmed if the last call of `mkdir` has not failed.  Then something stands
under the path (`Continues.stands`); whether it is a directory depends on what stood there
before.

## What is left alone

For the parts of an upload it has to be known what they do not change.  On the client that is
everything (`SameTree`).  On the server nothing goes away, and a file has other bytes only at
the place of the path (`ChangedAt`).  If the path does not fit into the server's buffer, it is
refused, and no place is meant by it (`PlaceIs`).
-/

namespace IsrTransfer

open Effect Posix

variable {F G : Faults} {lossy eof : Bool} {L : Lz4} {fuel : Nat}
variable {root path rest : List UInt8} {flags : UInt8} {blockSize n : Nat}

/-! ## What is not changed by an upload -/

namespace Posix.Sys

variable {s s' s'' : Sys} {p : List UInt8}

/-- The files are the same, and paths lead where they led. -/
structure SameTree (s s' : Sys) : Prop where
  fs : s'.fs = s.fs
  cwd : s'.cwd = s.cwd

theorem SameTree.refl (s : Sys) : s.SameTree s := ⟨rfl, rfl⟩

theorem SameTree.trans (h : s.SameTree s') (h' : s'.SameTree s'') : s.SameTree s'' :=
  ⟨h'.fs.trans h.fs, h'.cwd.trans h.cwd⟩

theorem SameTree.resolve (h : s.SameTree s') : s'.resolve p = s.resolve p := by
  rw [Sys.resolve, Sys.resolve, h.fs, h.cwd]

theorem OnlyRead.sameTree (h : s.OnlyRead s') : s.SameTree s' := ⟨h.fs, h.cwd⟩

theorem sameTree_openRead (s : Sys) (p : List UInt8) : s.SameTree (s.openRead p).2 := by
  rcases openRead_cases s p with h | ⟨ino, h⟩ <;> (rw [h]; exact ⟨rfl, rfl⟩)

end Posix.Sys

theorem Complains.sameTree {w v : World} (h : Complains w v) : w.sys.SameTree v.sys :=
  ⟨h.fs, h.cwd⟩

/-! ## What the client sends -/

/-- What has been sent is a beginning of the command, or begins with it. -/
def Begun (command up : List UInt8) : Prop := up <+: command ∨ command <+: up

/-- What the server says in the end about a file. -/
def Confirmed (down : List UInt8) : Prop :=
  2 * sizeofResponse ≤ down.length ∧ (down.drop sizeofResponse).headD 0 = isrResultOk

/-- If the command does not get through, a beginning of it has been sent. -/
theorem ensures_isrTransmitSendCommand_begun {A : Guard (NetOp OsOp) World} (hP : Permits A)
    {w : World} {Q : Int → World → Prop}
    (hok : Q 0 (w.sent (sendCommandBytes path flags blockSize n)))
    (hfail : lossy → ∀ data, data <+: sendCommandBytes path flags blockSize n →
      Q (-1) (w.sent data)) :
    Ensures (machine F lossy eof) A (isrTransmitSendCommand path flags blockSize n) Q w := by
  unfold isrTransmitSendCommand
  refine ensures_sendOr hP ?_ (fun hl k _ => hfail hl _ ?_)
  · refine ensures_sendOr hP ?_ (fun hl k _ => ?_)
    · refine ensures_sendOr hP ?_ (fun hl k _ => ?_)
      · rw [ensures_pure, Proc.sent_sent, Proc.sent_sent]
        exact hok
      · rw [Proc.sent_sent, Proc.sent_sent]
        exact hfail hl _ (List.cons_prefix_cons.mpr ⟨rfl,
          (List.prefix_append_right_inj (IsrSendCommandHeader.bytes _)).mpr (List.take_prefix _ _)⟩)
    · rw [Proc.sent_sent]
      exact hfail hl _ (List.cons_prefix_cons.mpr
        ⟨rfl, (List.take_prefix _ _).trans (List.prefix_append _ _)⟩)
  · exact (List.take_prefix k [isrCommandSend]).trans (List.prefix_append _ _)

section Session

variable {w : World} {α : Type} {command : List UInt8}

theorem permits_connectless : Permits (Caller.Connectless : Guard (NetOp OsOp) World) :=
  ⟨fun _ _ _ => trivial, fun _ => trivial, fun _ _ _ => trivial, fun _ _ _ _ => trivial,
    fun _ _ => trivial, fun _ _ => trivial, fun _ _ => trivial, fun _ _ => trivial⟩

/-- What follows the command only adds to it; and if it has not got through, nothing follows. -/
theorem ensures_begun {p : Prog Int} {f : Int → Prog α} {Q : α → World → Prop}
    (hp : ∀ {Q' : Int → World → Prop}, Q' 0 (w.sent command) →
      (lossy → ∀ data, data <+: command → Q' (-1) (w.sent data)) →
      Ensures (machine F lossy eof) Caller.Connectless p Q' w) (hw : w.tx = [])
    (hstop : ∀ u, Ensures (machine F lossy eof) Anything (f (-1)) (fun _ v => v.tx = u.tx) u)
    (h : Ensures (machine F lossy eof) Caller.Connectless (p >>= f) Q w) :
    Ensures (machine F lossy eof) Caller.Connectless (p >>= f)
      (fun a v => Q a v ∧ Begun command v.tx) w := by
  rw [ensures_bind] at h ⊢
  have hbegun : Ensures (machine F lossy eof) Caller.Connectless p
      (fun r u => command <+: u.tx ∨ (r = -1 ∧ u.tx <+: command)) w := by
    refine hp (Or.inl ?_) fun _ data hdata => Or.inr ⟨rfl, ?_⟩
    · exact ⟨[], by rw [Proc.sent_tx, hw, List.nil_append, List.append_nil]⟩
    · rwa [Proc.sent_tx, hw, List.nil_append]
  refine (h.and hbegun).weaken (fun _ _ _ hA => hA.1) ?_
  rintro r u ⟨hrest, hsent | ⟨rfl, hpart⟩⟩
  · refine (hrest.and (Caller.ensures_prefix_of_connectless hrest)).weaken
      (fun _ _ _ hA => hA.1) ?_
    rintro a v ⟨hQ, -, -, hle⟩
    exact ⟨hQ, Or.inr (hsent.trans hle)⟩
  · refine (hrest.and (hstop u)).weaken (fun _ _ _ hA => hA.1) ?_
    rintro a v ⟨hQ, htx⟩
    exact ⟨hQ, Or.inl (by rwa [htx])⟩

end Session

/-! ## The calls of the client

What a client has said and heard on a connection is a `Talk`.  For each operation there is one
statement: if it has succeeded, the talk on its connection is that of a complete upload, or of a
directory that has been confirmed. -/

/-- How an operation with one connection can go: there has been no connection, or one that has
begun with `command`; and if the operation has succeeded, `P` holds of it. -/
inductive SentCall (path : List UInt8) (flags : UInt8) (blockSize : Nat) (P : Talk → Prop)
    (c : Caller Sys) (r : Int) (c' : Caller Sys) : Prop where
  | unsent : r ≠ 0 → c'.talks = c.talks → SentCall path flags blockSize P c r c'
  | sent {n : Nat} {e : Talk} : c'.talks = e :: c.talks →
      Begun (sendCommandBytes path flags blockSize n) e.up → (r = 0 → P e) →
      SentCall path flags blockSize P c r c'

/-- A file has been sent as a whole, and the server has confirmed it. -/
def FileSent (L : Lz4) (path : List UInt8) (flags : UInt8) (blockSize : Nat)
    (content : List UInt8) (e : Talk) : Prop :=
  ∃ data, SentOf L flags blockSize content data ∧
    e.up = sendCommandBytes path flags blockSize content.length ++ data ∧ Confirmed e.down

/-- A directory has been asked for, and the server has confirmed it. -/
def MkdirSent (path : List UInt8) (e : Talk) : Prop :=
  e.up = sendCommandBytes path isrFlagCreateDirectory 0 0 ∧ e.down.head? = some isrResultOk

section Calls

variable {c : Caller Sys} {s : Sys} {input content : List UInt8} {fd : Fd}

theorem ensures_sendFileSession_talk (hs : s.script = none) (hu : s.unread fd = some content) :
    Ensures (machine F lossy eof) Caller.Connectless
      (sendFileSession L fuel fd path flags blockSize content.length)
      (fun r v => (s.SameTree v.sys ∧ (r = 0 → FileSent L path flags blockSize content
        ⟨v.input, v.tx⟩)) ∧ Begun (sendCommandBytes path flags blockSize content.length) v.tx)
      (Proc.start s input) := by
  have hP : Permits (Caller.Connectless : Guard (NetOp OsOp) World) := permits_connectless
  have hfail : ∀ {u v : World} {P : Prop}, s.SameTree u.sys → Complains u v →
      s.SameTree v.sys ∧ ((-1 : Int) = 0 → P) :=
    fun hu hv => ⟨hu.trans hv.sameTree, fun h => absurd h (by decide)⟩
  refine ensures_begun (fun hok hstop => ensures_isrTransmitSendCommand_begun hP hok hstop) rfl
    (fun u => ?_) ?_
  · exact ensures_complainFail permits_anything (by decide) fun v hv => hv.tx
  refine ensures_sendFileSession hP ?_
  constructor
  · exact fun _ data v hv => hfail (.refl s) hv
  · exact fun _ _ _ => trivial
  · exact fun k v _ _ _ hv => hfail (.refl s) hv
  · exact fun _ _ v hv => hfail (.refl s) hv
  · intro hlen _
    have houtline : Ensures (machine F lossy eof) Caller.Connectless
        (transmitFile L fuel fd flags blockSize) (fun _ v => ∃ s' data, s.OnlyRead s' ∧
          v = ((repliedWorld s input (sendCommandBytes path flags blockSize
            content.length)).withSys s').sent data) (repliedWorld s input _) :=
      ensures_transmitFile_outline hP (fun _ _ => trivial) fun r s' data h => ⟨s', data, h, rfl⟩
    refine (houtline.and (ensures_transmitFile_sent hP (fun _ => trivial) hs hu)).weaken
      (fun _ _ _ hA => hA.1) ?_
    rintro r v ⟨⟨s', data, hread, rfl⟩, -, hsent⟩
    refine ⟨fun _ u hu => hfail hread.sameTree hu, fun hne => ?_⟩
    obtain ⟨data', hdata, htx⟩ := hsent hne
    obtain rfl : data = data' := List.append_cancel_left htx
    constructor
    · exact fun _ _ _ => trivial
    · exact fun k u _ _ _ hu => hfail hread.sameTree hu
    · intro hlen' hok
      refine ⟨hread.sameTree, fun _ => ⟨data, hdata, rfl, ?_, hok⟩⟩
      have hrest : sizeofResponse ≤ (input.drop sizeofResponse).length := hlen'
      rw [List.length_drop] at hrest
      show 2 * sizeofResponse ≤ input.length
      omega
    · exact fun _ _ u hu => hfail hread.sameTree hu

/-- What complains and fails does so on whatever connection there is. -/
theorem ensures_complainFail_talk {α : Type} {format : String} {args : List Arg} {a : α}
    {Q : α → Caller Sys → Prop} (hformat : format ∉ failureFormats)
    (hQ : ∀ v, Complains c.proc v → Q a ⟨v, c.past⟩) :
    Ensures (Caller.step (Sys.step F) lossy eof) Anything (do
      complain format args
      return a) Q c := by
  have h : Ensures (machine F lossy eof) Caller.Connectless (do
      complain format args
      return a) (fun b v => b = a ∧ Complains c.proc v) c.proc :=
    ensures_complainFail permits_connectless hformat fun v hv => ⟨rfl, hv⟩
  refine (Caller.ensures_of_connectless h).mono ?_
  rintro b ⟨v, past⟩ ⟨⟨rfl, hv⟩, rfl⟩
  exact hQ v hv

/-- Lines on standard error do not show on the connection. -/
theorem talks_of_complains {v : World} (h : Complains c.proc v) :
    (⟨v, c.past⟩ : Caller Sys).talks = c.talks := by
  rw [Caller.talks, Caller.talks, Caller.talk, Caller.talk, h.tx, h.input]

/-- **`isr_cli_send_file`**, for a file that can be found.  If it succeeds it has sent the
file's content as a whole and seen the reply to it; its own tree is as it was. -/
theorem ensures_isrCliSendFile_talk {localFile : List UInt8} {k : Loc} {i : Nat}
    (hs : c.proc.sys.script = none) (hk : c.proc.sys.resolve localFile = some k)
    (hi : c.proc.sys.fs.node k = some (.file i)) :
    Ensures (Caller.step (Sys.step F) lossy eof) Anything
      (isrCliSendFile L fuel path localFile flags blockSize)
      (fun r c' => c.proc.sys.SameTree c'.proc.sys ∧ SentCall path flags blockSize
        (FileSent L path flags blockSize (c.proc.sys.fs.data i)) c r c') c := by
  have hunsent : ∀ {u v : World}, Complains u v → c.proc.sys.SameTree u.sys →
      u.tx = c.proc.tx → u.input = c.proc.input → c.proc.sys.SameTree v.sys ∧
        SentCall path flags blockSize (FileSent L path flags blockSize (c.proc.sys.fs.data i)) c
          (-1) ⟨v, c.past⟩ := by
    intro u v hv hsame htx hin
    refine ⟨hsame.trans hv.sameTree, .unsent (by decide) ?_⟩
    rw [Caller.talks, Caller.talks, Caller.talk, Caller.talk, hv.tx, hv.input, htx, hin]
  unfold isrCliSendFile
  rw [ensures_bind]
  refine Caller.ensures_sys fun st s' hstat => ?_
  obtain ⟨hstat, rfl⟩ := hstat
  rw [Proc.withSys_self]
  rcases st with - | ⟨isDir, size⟩
  · exact ensures_complainFail_talk (by decide) fun v hv => hunsent hv (.refl _) rfl rfl
  have hsize : size = (c.proc.sys.fs.data i).length := by
    cases isDir with
    | true =>
      obtain ⟨k', hk', hdir⟩ := Sys.statStep_dir hstat
      obtain rfl := Option.some.inj (hk'.symm.trans hk)
      exact absurd (hdir.symm.trans hi) (by simp)
    | false =>
      obtain ⟨k', i', hk', hi', hlen⟩ := Sys.statStep_file hstat
      obtain rfl := Option.some.inj (hk'.symm.trans hk)
      obtain rfl := Node.file.inj (Option.some.inj (hi'.symm.trans hi))
      rw [hlen, Sys.sizeOf, hs]
  subst hsize
  rw [ensures_bind]
  refine Caller.ensures_sys fun fd s' hopen => ?_
  rcases hopen with hopen | ⟨-, rfl, rfl⟩
  swap
  · exact ensures_complainFail_talk (by decide) fun v hv => hunsent hv (.refl _) rfl rfl
  have hsame : c.proc.sys.SameTree s' := by
    rw [show s' = (c.proc.sys.openRead localFile).2 from congrArg Prod.snd hopen]
    exact Sys.sameTree_openRead _ _
  cases fd with
  | none =>
    exact ensures_complainFail_talk (by decide) fun v hv => hunsent hv hsame rfl rfl
  | some fd =>
    rw [ensures_bind]
    refine Caller.ensures_connect (fun input => ?_) fun _ => ?_
    · -- a connection
      have hs' : s'.script = none := (Sys.script_of_openRead hopen.symm).trans hs
      have hu := Sys.unread_of_openRead hk hi hopen.symm
      have hsession : Ensures (machine F lossy eof) Caller.Connectless (do
          let ret ← sendFileSession L fuel fd path flags blockSize (c.proc.sys.fs.data i).length
          isrClose fd
          netClose
          return ret) (fun r v => (s'.SameTree v.sys ∧ (r = 0 → FileSent L path flags blockSize
            (c.proc.sys.fs.data i) ⟨v.input, v.tx⟩)) ∧ Begun (sendCommandBytes path flags blockSize
            (c.proc.sys.fs.data i).length) v.tx) (Proc.start s' input) := by
        rw [ensures_bind]
        refine (ensures_sendFileSession_talk hs' hu).mono fun r v hv => ?_
        rw [ensures_bind, ensures_close, ensures_bind, ensures_netClose]
        exact ⟨trivial, trivial, hv⟩
      refine (Caller.ensures_of_connectless hsession).mono ?_
      rintro r ⟨v, past⟩ ⟨⟨⟨htree, hok⟩, hbegun⟩, rfl⟩
      exact ⟨hsame.trans htree, .sent rfl hbegun hok⟩
    · have hclosed : Ensures (machine F lossy eof) Caller.Connectless (do
          complain "Failed to connect to %s:%s\n" []
          isrClose fd
          return (-1 : Int)) (fun r v => r = -1 ∧ Complains (c.proc.withSys s') v)
          (c.proc.withSys s') := by
        rw [ensures_bind]
        refine ensures_complain permits_connectless (by decide) fun v hv => ?_
        rw [ensures_bind, ensures_close]
        exact ⟨trivial, rfl, hv⟩
      refine (Caller.ensures_of_connectless (c := ⟨c.proc.withSys s', c.past⟩) hclosed).mono ?_
      rintro r ⟨v, past⟩ ⟨⟨rfl, hv⟩, rfl⟩
      exact hunsent hv hsame rfl rfl

/-- `isr_cli_send_mkdir`, when it has connected. -/
def askMkdir (path : List UInt8) : Prog Int := do
  if (← isrTransmitSendCommand path isrFlagCreateDirectory 0 0) = -1 then
    complain "Failed to send mkdir command\n" []
    netClose
    return -1
  match ← netRecvExact sizeofResponse sizeofResponse with
  | none =>
    complain "Failed to read server response\n" []
    netClose
    return -1
  | some buf =>
    let response := IsrResponse.ofBytes buf
    netClose
    if response.responseType ≠ isrResultOk then
      complain "Server error creating directory '%s': %s\n"
        [.str path, .str (cstr response.responseData)]
      return -1
    return 0

theorem isrCliSendMkdir_eq (path : List UInt8) : isrCliSendMkdir path = (do
    if (← netConnect) = false then
      complain "Failed to connect to %s:%s\n" []
      return -1
    askMkdir path) := rfl

theorem ensures_askMkdir {s : Sys} {input : List UInt8} :
    Ensures (machine F lossy eof) Caller.Connectless (askMkdir path)
      (fun r v => (s.SameTree v.sys ∧ (r = 0 → MkdirSent path ⟨v.input, v.tx⟩)) ∧
        Begun (sendCommandBytes path isrFlagCreateDirectory 0 0) v.tx) (Proc.start s input) := by
  have hP : Permits (Caller.Connectless : Guard (NetOp OsOp) World) := permits_connectless
  have hfail : ∀ {u v : World} {P : Prop}, Complains u v → s.SameTree u.sys →
      s.SameTree v.sys ∧ ((-1 : Int) = 0 → P) :=
    fun hv hu => ⟨hu.trans hv.sameTree, fun h => absurd h (by decide)⟩
  refine ensures_begun
    (fun hok hstop => ensures_isrTransmitSendCommand_begun hP hok hstop) rfl (fun u => ?_) ?_
  · exact ensures_complainClose permits_anything (by decide) fun v hv => hv.tx
  rw [ensures_bind]
  refine ensures_isrTransmitSendCommand hP ?_ fun _ data => ?_
  · rw [if_neg (by decide), ensures_bind]
    refine ensures_netRecvExact (fun _ _ _ => trivial) (fun hlen => ?_) fun _ _ _ _ => ?_
    · simp only
      rw [ensures_bind, ensures_netClose]
      refine ⟨trivial, ?_⟩
      split
      · exact ensures_complainFail hP (by decide) fun v hv => hfail hv (.refl _)
      · next hok =>
        refine ⟨.refl _, fun _ => ⟨rfl, ?_⟩⟩
        have hhead : (input.take sizeofResponse).headD 0 = isrResultOk := not_not.mp hok
        rw [headD_take _ (by decide)] at hhead
        show input.head? = some isrResultOk
        cases input with
        | nil => exact absurd (show sizeofResponse ≤ 0 from hlen) (by decide)
        | cons b bs => exact congrArg some hhead
    · exact ensures_complainClose hP (by decide) fun v hv => hfail hv (.refl _)
  · rw [if_pos rfl]
    exact ensures_complainClose hP (by decide) fun v hv => hfail hv (.refl _)

/-- **`isr_cli_send_mkdir`.**  It sends a command and nothing else, so that its success is one
reply. -/
theorem ensures_isrCliSendMkdir_talk :
    Ensures (Caller.step (Sys.step F) lossy eof) Anything (isrCliSendMkdir path)
      (fun r c' => c.proc.sys.SameTree c'.proc.sys ∧
        SentCall path isrFlagCreateDirectory 0 (MkdirSent path) c r c') c := by
  rw [isrCliSendMkdir_eq, ensures_bind]
  refine Caller.ensures_connect (fun input => ?_) fun _ => ?_
  · rw [if_neg (by decide)]
    refine (Caller.ensures_of_connectless ensures_askMkdir).mono ?_
    rintro r ⟨v, past⟩ ⟨⟨⟨htree, hok⟩, hbegun⟩, rfl⟩
    exact ⟨htree, .sent rfl hbegun hok⟩
  · rw [if_pos rfl]
    exact ensures_complainFail_talk (by decide) fun v hv =>
      ⟨hv.sameTree, .unsent (by decide) (talks_of_complains hv)⟩

end Calls

/-! ## What the server does

The same for the server on a connection that may fail at any point: it has taken the whole file
and said so, or else it has said something that no client takes for success. -/

/-- Only so much of the path is sent. -/
theorem sendCommandBytes_requested (path : List UInt8) (flags : UInt8) (blockSize n : Nat) :
    sendCommandBytes (requested path) flags blockSize n =
      sendCommandBytes path flags blockSize n := by
  have hlen : pathLen (requested path) = pathLen path := by
    have hmod : pathLen path < 65536 := Nat.mod_lt _ (by decide)
    rw [pathLen, length_requested, Nat.mod_eq_of_lt hmod]
  rw [sendCommandBytes, sendCommandBytes, hlen, requested, List.take_take, Nat.min_self]

/-- The directory has been made, or it was there: the last call of `mkdir` has not failed. -/
def LastMade (G : Faults) (root path : List UInt8) (s s' : Sys) : Prop :=
  ∃ full ps p s₁ r, isrValidatePath path ≠ -1 ∧ resolvedPath s root path isrPathMax = some full ∧
    mkdirTargets full = ps ++ [p] ∧ s.DirsAdded s₁ ∧ MkdirStep G s₁ p r s' ∧ r ≠ .failed

/-- How a SEND can go, on a connection that may fail.  `P` says what is made of the data that
comes. -/
inductive SendEnd (G : Faults) (P : List UInt8 → Int → Prop) (root path : List UInt8)
    (flags : UInt8) (s : Sys) (v : World) : Prop where
  /-- No file has been opened, and at most one reply has been sent. -/
  | unopened : s.DirsAdded v.sys → v.tx.length ≤ sizeofResponse →
      (hasFlag flags isrFlagCreateDirectory = true → v.tx.head? = some isrResultOk →
        LastMade G root path s v.sys) → SendEnd G P root path flags s v
  /-- A file has been opened, and what came has been written to it. -/
  | received {full data : List UInt8} {result : Int} :
      hasFlag flags isrFlagCreateDirectory = false → isrValidatePath path ≠ -1 →
      resolvedPath s root path isrPathMax = some full → P data result →
      Written s full data v.sys → (Confirmed v.tx → ¬ Failed result) →
      SendEnd G P root path flags s v

section Server

variable {P : List UInt8 → Int → Prop} {s : Sys} {w v : World}

/-- What a receiver does that finds `rest` on a connection that may fail, as far as `P` says
it. -/
def TakesLossy (G : Faults) (lossy : Bool) (receive : Fd → Prog Int) (rest : List UInt8)
    (P : List UInt8 → Int → Prop) : Prop :=
  ∀ (u : World) (fd : Fd), u.rx = rest → Ensures (machine G lossy true) Anything (receive fd)
    (fun r v => ∃ data k, P data r ∧ v = taken u fd data k) u

/-- One reply, after directories have been made. -/
theorem SendEnd.of_sends {data : List UInt8} (hdirs : s.DirsAdded w.sys) (hw : w.tx = [])
    (hdata : data.length = sizeofResponse) (hv : Sends lossy w data v)
    (hok : v.tx.head? = some isrResultOk → LastMade G root path s v.sys) :
    SendEnd G P root path flags s v := by
  refine .unopened (by rwa [hv.sys]) ?_ fun _ => hok
  exact (hv.tx_prefix hw).length_le.trans hdata.le

/-- The last reply says whether the file has been taken. -/
theorem not_failed_of_confirmed {present : Bool} {r : Int} (hw : w.tx = acceptance present)
    (hv : Sends lossy w (resultBytes r) v) (hconfirmed : Confirmed v.tx) : ¬ Failed r := by
  obtain ⟨hlen, hok⟩ := hconfirmed
  rcases hv with rfl | ⟨-, k, hk, rfl⟩
  · rw [Proc.sent_tx, hw, List.drop_left' (length_acceptance present)] at hok
    rintro (rfl | rfl)
    · exact absurd (show isrResultOtherFailure = isrResultOk from hok) (by decide)
    · exact absurd (show isrResultChecksumBad = isrResultOk from hok) (by decide)
  · rw [length_resultBytes] at hk
    rw [Proc.sent_tx, hw, List.length_append, length_acceptance, List.length_take] at hlen
    omega

/-- The part of a SEND after the existence checks. -/
theorem acceptCases_end (header : IsrSendCommandHeader) {full : List UInt8} (present : Bool)
    (hw : w.tx = []) (hno : hasFlag header.flags isrFlagCreateDirectory = false)
    (hvalid : isrValidatePath path ≠ -1)
    (hfull : resolvedPath w.sys root path isrPathMax = some full)
    (hdata : TakesLossy G lossy (fun fd => receiveFile L fuel fd header.flags
      header.uncompressedBlockSize header.effectiveLength) w.rx P) :
    AcceptCases G lossy true Anything L fuel header full present
      (fun _ v => SendEnd G P root path header.flags w.sys v) w := by
  have hdirs : ∀ {s k}, Mkdirs G w.sys (parentTargets full) s → SendEnd G P root path header.flags
      w.sys ((w.withSys s).sent ((acceptance present).take k)) := by
    intro s k hrun
    refine .unopened hrun.dirsAdded ?_ fun hflag => absurd (hno.symm.trans hflag) (by decide)
    rw [Proc.sent_tx, Proc.withSys_tx, hw, List.nil_append, List.length_take, length_acceptance]
    exact Nat.min_le_right _ _
  constructor
  · exact fun _ _ _ _ _ _ => trivial
  · exact fun _ _ => trivial
  · exact fun s k hrun _ _ => hdirs hrun
  · intro s hrun _
    have hall := hdirs (k := (acceptance present).length) hrun
    rwa [List.take_length] at hall
  · intro s₁ fd s₂ hrun hopen
    refine (hdata ((w.withSys s₂).sent (acceptance present)) fd rfl).mono ?_
    rintro r v ⟨data, k, hP, rfl⟩ u hu
    have htx : (taken ((w.withSys s₂).sent (acceptance present)) fd data k).tx =
        acceptance present := by
      rw [taken_tx, Proc.sent_tx, Proc.withSys_tx, hw, List.nil_append]
    refine .received hno hvalid hfull hP ⟨s₁, fd, s₂, hrun.dirsAdded, hopen, ?_⟩
      (not_failed_of_confirmed htx hu)
    rw [hu.sys]
    rfl

/-- **A connection with a SEND.** -/
theorem ensures_serveConnection_sendEnd (h0 : (0 : UInt8) ∉ path) (hlen : path.length < 65536)
    (hdata : TakesLossy G lossy (fun fd => receiveFile L fuel fd flags (blockSize % 256 ^ 4)
      (n % 256 ^ 8)) rest P) :
    Ensures (machine G lossy true) Anything (serveConnection L fuel root)
      (fun _ v => SendEnd G P root path flags s v)
      (Proc.start s (sendCommandBytes path flags blockSize n ++ rest)) := by
  have hhead := head_sendCommandBytes path flags blockSize n rest
  have hheader := sendHeader_sendCommandBytes path flags blockSize n rest
  have hpath : cstr (sendPath (sendCommandBytes path flags blockSize n ++ rest)) = path := by
    rw [sendPath_sendCommandBytes, pathLen, Nat.mod_eq_of_lt hlen, List.take_length,
      cstr_of_notMem h0]
  have hno : ∀ {k}, SendEnd G P root path flags s
      ((Proc.start s (sendCommandBytes path flags blockSize n ++ rest)).received k) :=
    fun {_} => .unopened (Sys.DirsAdded.refl s) (Nat.zero_le _) fun _ h => absurd h (by simp)
  refine ensures_serveConnection permits_anything (ensures_isrReceiveCommand permits_anything ?_)
  constructor
  · exact fun _ _ _ _ _ _ _ => trivial
  · exact fun _ _ _ _ => hno
  · exact fun _ _ _ _ => hno
  · intro cmd rest' heq hsend
    rw [Proc.start_rx] at heq
    rw [heq] at hhead
    exact absurd (Option.some.inj hhead) hsend
  · intro _ _ _
    rw [Proc.start_rx, hpath, hheader]
    simp only
    generalize hw : (Proc.start s (sendCommandBytes path flags blockSize n ++ rest)).received
      (16 + pathLen path) = w
    have hsys : w.sys = s := by rw [← hw]; rfl
    have htx : w.tx = [] := by rw [← hw]; rfl
    have hrx : w.rx = rest := by
      rw [← hw, Proc.received_rx, Proc.start_rx,
        List.drop_left' (length_sendCommandBytes path flags blockSize n)]
    subst hsys
    have hrefused : ∀ {message v}, Sends lossy w (refusal message) v →
        SendEnd G P root path flags w.sys v := fun hv =>
      .of_sends (Sys.DirsAdded.refl _) htx (length_refusal _) hv fun hok =>
        absurd hok (not_ok_of_refusal htx hv)
    refine ensures_isrReceiveSendCommand permits_anything (fun _ _ => trivial)
      (fun _ v hv => hrefused hv) (fun _ _ v hv => hrefused hv) fun hvalid full hfull => ?_
    constructor
    · exact fun _ _ _ _ _ _ _ => trivial
    · intro _ ps p s₁ r s₂ v htargets hrun hstep hv
      refine .of_sends (w := w.withSys s₂) (hrun.dirsAdded.trans hstep.dirsAdded) htx
        (length_mkdirReply r) hv fun hok => ?_
      by_cases hr : r = .failed
      · rw [mkdirReply, if_pos hr] at hv
        exact absurd hok (not_ok_of_refusal (w := w.withSys s₂) htx hv)
      · rw [hv.sys]
        exact ⟨full, ps, p, s₁, r, hvalid, hfull, htargets, hrun.dirsAdded, hstep, hr⟩
    · exact fun _ => trivial
    · exact fun _ _ v _ hv => hrefused hv
    · exact fun _ _ v _ _ hv => hrefused hv
    · intro hno' _
      exact acceptCases_end ⟨flags, pathLen path, blockSize % 256 ^ 4, n % 256 ^ 8⟩ false htx hno'
        hvalid hfull (by rw [hrx]; exact hdata)
    · intro hno' _ _ _
      exact acceptCases_end ⟨flags, pathLen path, blockSize % 256 ^ 4, n % 256 ^ 8⟩ true htx hno'
        hvalid hfull (by rw [hrx]; exact hdata)
  · intro hrecv _ _
    rw [Proc.start_rx, hhead] at hrecv
    exact absurd hrecv (by decide)

/-- **A command that is cut off does nothing.**  The handler is not called before the whole
path has been received. -/
theorem ensures_serveConnection_cut {up : List UInt8} {command : List UInt8}
    (hcommand : command = sendCommandBytes path flags blockSize n) (hup : up <+: command)
    (hcut : up.length < command.length) :
    Ensures (machine G lossy true) Anything (serveConnection L fuel root)
      (fun _ v => v.sys = s) (Proc.start s up) := by
  obtain ⟨more, rfl⟩ := hup
  have hlen := length_sendCommandBytes path flags blockSize n
  have hhead := head_sendCommandBytes path flags blockSize n []
  have hheader := sendHeader_sendCommandBytes path flags blockSize n []
  rw [List.append_nil, ← hcommand] at hhead hheader
  rw [← hcommand] at hlen
  have hfirst : ∀ {cmd}, up.head? = some cmd → cmd = isrCommandSend := by
    intro cmd hcmd
    rw [List.head?_append, hcmd] at hhead
    exact Option.some.inj hhead
  refine ensures_serveConnection permits_anything (ensures_isrReceiveCommand permits_anything ?_)
  constructor
  · exact fun _ _ _ _ _ _ _ => trivial
  · exact fun _ _ _ _ => rfl
  · exact fun _ _ _ _ => rfl
  · intro cmd rest' heq hsend
    rw [Proc.start_rx] at heq
    exact absurd (hfirst (by rw [heq]; rfl)) hsend
  · intro _ _ hall
    rw [Proc.start_rx] at hall
    -- the header has come, so the path is missing
    have hsame : sendHeader up = sendHeader (up ++ more) := by
      rw [sendHeader, sendHeader, List.drop_append_of_le_length (by omega),
        List.take_append_of_le_length]
      rw [List.length_drop, sizeofSendCommandHeader]
      omega
    rw [hsame, hheader] at hall
    simp only at hall
    omega
  · intro hrecv _ _
    exact absurd (hfirst hrecv) (by decide)

end Server

/-! ## What stands under the path afterwards

Both sides together: what the client takes for success has been said by a server that has stored
the file, or made the directory.  Everything else the server has left as it was, except for one
file that may have been begun. -/

namespace Posix

section Continues

variable {s : Sys} {p : List UInt8} {l : Loc} {cs : List Name}

/-- **If a call of `mkdir` has not failed, something stands where its path leads.** -/
theorem Continues.stands {F : Faults} {s' : Sys} {r : MkdirResult} (h : Continues p l cs)
    (hdd : dotdot ∉ cs) (hl : s.fs.node l = some .dir) (hlinks : s.fs.NoLinksBelow l)
    (hstep : MkdirStep F s p r s') (hr : r ≠ .failed) : s'.fs.node (FS.descend l cs) ≠ none := by
  have hdirs := hstep.dirsAdded
  have hleads := (Sys.leadsTo_iff_of_grows hdirs.fs.grows hdirs.cwd).mpr
    (h.leadsTo hdd hl hlinks)
  cases hstep.outcome with
  | failed => exact absurd rfl hr
  | @made s' j hlead hnone hnode =>
    rw [hleads.unique (Sys.leadsTo_of_lead hlead), hnode, if_pos rfl]
    simp
  | there hdir =>
    obtain ⟨j, hlead, hnode⟩ := hdir
    rw [hleads.unique (Sys.leadsTo_of_lead hlead), hnode]
    simp
  | taken htaken =>
    obtain ⟨⟨cur, c, nd, hparent, hnd⟩, -⟩ := htaken
    obtain ⟨hs, hd⟩ := not_stays_of_valid (FS.validName_of_node hnd)
    obtain ⟨ds, m, hcomps, hcur⟩ := Sys.components_of_mkdirParent hparent
    have hall := hcomps.symm.trans h.1
    rw [← List.cons_append] at hall
    have hbelow : ∀ bs, ds = [] :: l.reverse ++ bs → cs = bs ++ c :: List.replicate m [] →
        s.fs.node (FS.descend l cs) ≠ none := by
      rintro bs rfl rfl
      have hlast : FS.descend l (bs ++ c :: List.replicate m []) = c :: FS.descend l bs := by
        rw [FS.descend_append, FS.descend_name hs, FS.descend_replicate]
      rw [h.startOf_eq, List.cons_append, FS.leads_stays (Or.inl rfl),
        FS.leads_append (FS.leads_real hl)] at hcur
      rw [List.mem_append, not_or] at hdd
      rw [hlast, (FS.leads_descend hdd.1 hlinks).unique hcur, hnd]
      simp
    -- the last name of the path comes after the root's, or nothing comes after them
    rcases List.append_eq_append_iff.mp hall with ⟨as, hroot, hrest⟩ | ⟨bs, hds, hrest⟩
    · cases as with
      | nil =>
        exact hbelow [] (by rw [List.append_nil, hroot, List.append_nil]) (by rw [hrest]; rfl)
      | cons a as =>
        obtain ⟨-, hrest⟩ := List.cons.inj hrest
        have hrest : List.replicate m [] = as ++ cs := hrest
        have hempty : ∀ x ∈ cs, x = [] := fun x hx =>
          List.eq_of_mem_replicate (hrest ▸ List.mem_append_right as hx)
        rw [List.eq_replicate_of_mem hempty, FS.descend_replicate, hl]
        simp
    · exact hbelow bs hds hrest

end Continues

end Posix

section Stored

variable {s s' t t' : Sys} {w v : World} {l : Loc}

/-- Nothing is gone, and only files whose place is in `X` have other bytes, or are new. -/
structure Posix.Sys.ChangedAt (X : Loc → Prop) (s s' : Sys) : Prop where
  grows : s.fs.Grows s'.fs
  cwd : s'.cwd = s.cwd
  others : ∀ k, ¬ X k → s'.fs.contents k = s.fs.contents k

theorem Posix.Sys.ChangedAt.refl (X : Loc → Prop) (s : Sys) : s.ChangedAt X s :=
  ⟨FS.Grows.refl _, rfl, fun _ _ => rfl⟩

theorem Posix.Sys.ChangedAt.trans {X : Loc → Prop} {s'' : Sys} (h : s.ChangedAt X s')
    (h' : s'.ChangedAt X s'') : s.ChangedAt X s'' :=
  ⟨h.grows.trans h'.grows, h'.cwd.trans h.cwd,
    fun k hk => (h'.others k hk).trans (h.others k hk)⟩

theorem Posix.Sys.ChangedAt.mono {X Y : Loc → Prop} (h : s.ChangedAt X s')
    (hXY : ∀ k, X k → Y k) : s.ChangedAt Y s' :=
  ⟨h.grows, h.cwd, fun k hk => h.others k fun hX => hk (hXY k hX)⟩

theorem Posix.Sys.DirsAdded.changedAt (h : s.DirsAdded s') (X : Loc → Prop) : s.ChangedAt X s' :=
  ⟨h.fs.grows, h.cwd, fun k _ => h.fs.contents k⟩

/-- The place of a path that fits into the server's buffer. -/
def PlaceIs (root : List UInt8) (l : Loc) (path : List UInt8) (k : Loc) : Prop :=
  (root ++ slash :: path).length < pathMax ∧ k = placeOf l path

/-- A SEND keeps what is promised about the files, and touches one of them at most. -/
theorem SendEnd.changedAt {P : List UInt8 → Int → Prop} (h : SendEnd G P root path flags s v)
    (hs : Rooted root l s) :
    Rooted root l v.sys ∧ s.ChangedAt (PlaceIs root l path) v.sys := by
  cases h with
  | unopened hdirs _ _ =>
    refine ⟨hs.of_dirsAdded hdirs.fs ?_, hdirs.changedAt _⟩
    obtain ⟨fs, -, heq⟩ := hdirs
    rw [heq]
    exact hs.still
  | received _ hvalid hfull _ hwritten _ =>
    obtain ⟨hstored, hrooted⟩ := hs.written hvalid hfull hwritten
    have htouched := hwritten.touched
    refine ⟨hrooted, htouched.grows, htouched.cwd, fun k hk => hstored.others k ?_⟩
    exact fun heq => hk ⟨length_of_resolvedPath hfull, heq⟩

/-- **What has been confirmed is stored.**  Only one of the ways in which a SEND can end
leaves a confirmation on the wire. -/
theorem SendEnd.stored {content : List UInt8} (hs : Rooted root l s)
    (h : SendEnd G (fun data r => ¬ Failed r → data = content) root path flags s v)
    (hconfirmed : Confirmed v.tx) :
    (root ++ slash :: path).length < pathMax ∧ StoredAt root l s path content v.sys := by
  cases h with
  | unopened _ hlen _ =>
    have htwo := hconfirmed.1
    have hpos : 0 < sizeofResponse := by decide
    omega
  | received _ hvalid hfull hP hwritten hok =>
    obtain rfl := hP (hok hconfirmed)
    exact ⟨length_of_resolvedPath hfull, (hs.written hvalid hfull hwritten).1⟩

/-- Making a directory changes no file. -/
theorem LastMade.contents (h : LastMade G root path s s') (k : Loc) :
    s'.fs.contents k = s.fs.contents k := by
  obtain ⟨_, _, _, s₁, _, -, -, -, hdirs, hstep, -⟩ := h
  rw [hstep.dirsAdded.fs.contents, hdirs.fs.contents]

theorem LastMade.fits (h : LastMade G root path s s') :
    (root ++ slash :: path).length < pathMax := by
  obtain ⟨full, -, -, -, -, -, hfull, -⟩ := h
  exact length_of_resolvedPath hfull

/-- **Where a directory has been confirmed something stands**, if there is no backslash in the
path. -/
theorem LastMade.stands (h : LastMade G root path s s') (hs : Rooted root l s)
    (hroot : backslash ∉ root) (hpath : backslash ∉ path) : s'.fs.node (placeOf l path) ≠ none := by
  obtain ⟨full, ps, p, s₁, r, hvalid, hfull, htargets, hdirs, hstep, hr⟩ := h
  have hchecked := checked_of_resolvedPath hvalid hfull
  obtain ⟨hshort, cs, hcs, hdd, hnames⟩ := resolvedPath_plain hs.canonical hs.noLinks
    (dotdot_notMem_of_valid hvalid) hfull
  obtain ⟨haimed, hreal⟩ := wellAimed_of_noLinks hs.canonical hs.noLinks hchecked
  obtain ⟨dir, name, hsplit, hrealized, -, -⟩ := haimed.accepted hs.canonical.path_eq hfull
  have hback : backslash ∉ full := by
    rw [hrealized]
    refine hreal dir name hsplit ?_
    rw [List.mem_append, List.mem_cons, not_or, not_or]
    exact ⟨hroot, by decide, hpath⟩
  have hps' := mkdirTargets_eq hshort
  rw [slashed_eq fun hmem => hback (List.mem_of_mem_drop hmem)] at hps'
  obtain rfl : p = full :=
    List.singleton_inj.mp (List.append_inj' (htargets.symm.trans hps') rfl).2
  have hg := hdirs.fs.grows
  have hplace : FS.descend l cs = placeOf l path := by
    rw [placeOf, FS.descend, FS.descend, hnames]
  rw [← hplace]
  exact hcs.stands hdd (hg.keep l _ hs.canonical.dir) (hs.noLinks.grows hg) hstep hr

end Stored

/-! ## What a connection has done -/

section Served

variable {t : Sys} {w : World} {l : Loc} {e : Talk} {r : Int}

theorem takesLossy_something {b m : Nat} :
    TakesLossy G lossy (fun fd => receiveFile L fuel fd flags b m) rest (fun _ _ => True) :=
  fun _ _ _ => ensures_receiveFile_outline permits_anything (fun _ _ _ _ _ _ => trivial)
    (fun _ _ => trivial) fun _ data k => ⟨data, k, trivial, rfl⟩

/-- A stream for the announced length is taken as a whole, or receiving fails. -/
theorem takesLossy_sent {b m : Nat} {content : List UInt8} (hblocks : BlocksOk L flags blockSize)
    (hlen : content.length < word64) (hsent : SentOf L flags blockSize content rest)
    (hb : hasFlag flags isrFlagUseCompression = true → b = blockSize) (hm : m = content.length) :
    TakesLossy G lossy (fun fd => receiveFile L fuel fd flags b m) rest
      (fun data r => ¬ Failed r → data = content) := by
  intro u fd hrx
  subst hm
  have heq : receiveFile L fuel fd flags b content.length =
      receiveFile L fuel fd flags blockSize content.length := by
    unfold receiveFile
    by_cases hflag : hasFlag flags isrFlagUseCompression = true
    · rw [hb hflag]
    · rw [if_neg hflag, if_neg hflag]
  rw [← hrx] at hsent
  simp only [heq]
  refine (ensures_receiveFile_sent hblocks hlen hsent).mono ?_
  rintro r v ⟨data, k, rfl, hP⟩
  exact ⟨data, k, hP, rfl⟩

/-- The server, after a command that has got through. -/
theorem sendEnd_of_reaches {P : List UInt8 → Int → Prop} (h0 : (0 : UInt8) ∉ path)
    (hdata : TakesLossy G lossy (fun fd => receiveFile L fuel fd flags (blockSize % 256 ^ 4)
      (n % 256 ^ 8)) rest P)
    (h : Reaches (machine G lossy true) (serveConnection L fuel root)
      (.start t (sendCommandBytes path flags blockSize n ++ rest)) (.ret r) w) :
    SendEnd G P root (requested path) flags t w := by
  rw [← sendCommandBytes_requested] at h
  exact (ensures_serveConnection_sendEnd (fun hmem => h0 (List.mem_of_mem_take hmem))
    ((length_requested path).trans_lt (Nat.mod_lt _ (by decide))) hdata).of_reaches h

/-- **A connection that has begun with a SEND** changes the file of the path at most. -/
theorem changedAt_of_begun (ht : Rooted root l t) (h0 : (0 : UInt8) ∉ path)
    (hbegun : Begun (sendCommandBytes path flags blockSize n) e.up)
    (h : Reaches (machine G lossy true) (serveConnection L fuel root) (.start t e.up) (.ret r) w) :
    Rooted root l w.sys ∧ t.ChangedAt (PlaceIs root l (requested path)) w.sys := by
  by_cases hcut : e.up.length < (sendCommandBytes path flags blockSize n).length
  · have hup : e.up <+: sendCommandBytes path flags blockSize n :=
      hbegun.resolve_right fun hle => Nat.not_lt.mpr hle.length_le hcut
    have hsys : w.sys = t := (ensures_serveConnection_cut rfl hup hcut).of_reaches h
    rw [hsys]
    exact ⟨ht, .refl _ _⟩
  · have hup : sendCommandBytes path flags blockSize n <+: e.up := by
      rcases hbegun with hle | hle
      · exact hle.eq_of_length_le (Nat.not_lt.mp hcut) ▸ List.prefix_rfl
      · exact hle
    obtain ⟨rest, hrest⟩ := hup
    rw [← hrest] at h
    exact (sendEnd_of_reaches h0 takesLossy_something h).changedAt ht

/-- **A file that has been sent and confirmed is stored.**  The client knows that it has sent
all of it, and the confirmation says that the server has taken what came. -/
theorem stored_of_fileSent {content : List UInt8} (ht : Rooted root l t) (h0 : (0 : UInt8) ∉ path)
    (hblocks : BlocksOk L flags blockSize) (hlen : content.length < word64)
    (hsent : FileSent L path flags blockSize content e)
    (h : Reaches (machine G lossy true) (serveConnection L fuel root) (.start t e.up) (.ret r) w)
    (hdown : w.tx = e.down) :
    (root ++ slash :: requested path).length < pathMax ∧
      StoredAt root l t (requested path) content w.sys := by
  obtain ⟨data, hdata, hup, hconfirmed⟩ := hsent
  rw [hup] at h
  refine (sendEnd_of_reaches h0 (takesLossy_sent hblocks hlen hdata (fun hflag => hblocks.mod hflag)
    (Nat.mod_eq_of_lt hlen)) h).stored ht ?_
  rwa [hdown]

/-- **A directory that has been asked for and confirmed.** -/
theorem lastMade_of_mkdirSent (h0 : (0 : UInt8) ∉ path) (hsent : MkdirSent path e)
    (h : Reaches (machine G lossy true) (serveConnection L fuel root) (.start t e.up) (.ret r) w)
    (hdown : w.tx = e.down) : LastMade G root (requested path) t w.sys := by
  obtain ⟨hup, hok⟩ := hsent
  rw [hup, ← List.append_nil (sendCommandBytes _ _ _ _)] at h
  cases sendEnd_of_reaches h0 takesLossy_something h with
  | unopened _ _ hmade => exact hmade (by decide) (by rwa [hdown])
  | received hno => exact absurd hno (by decide)

end Served

end IsrTransfer
