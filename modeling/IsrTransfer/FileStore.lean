import IsrTransfer.Effect.Duplex
import IsrTransfer.StoredFiles

/-!
# The server as a store of files

A client that sends a file, makes a directory or receives something does so in a session of
its own with the server's handler, and the accept loop serves one session after the other.
Over such a history the server is a store of bytes under places: a session that has sent a
file and returns `0` has put its bytes at the place that the path denotes, no other session
changes the bytes of any file, and what a client has received is what is stored at the place
it asked for (`Session.Correct`, `Session.apply`).

## What is promised

`Session.apply` is the abstract store: a table of bytes under places, in which a successful upload
sets one entry and everything else sets none.  `Session.Correct` compares a session of the two
programs with it, and says what the client gets.  The files may be changed by nobody else, there
are no links and no second names below the root (`Served`), and a session keeps this.  What a
client asks for is such that it can be put into the messages (`Session.Fits`): a path whose length
has two bytes, a file whose sum of bytes fits into eight with a sign.  And reads, writes and
allocations do not fail (`Faults.Quiet`): a server that runs into a failed write has emptied the
file before (see `FailedTransfer`), so that a session which fails would not leave the files as
they were.

## A session in two halves

Each side runs alone with the bytes of the other (`Duplex.localRuns`), so that a session is
put together from an outcome of the client and an outcome of the server (`Session.Halves`).  These
outcomes are known for each side by itself (`ClientOutcomes`, `ServerOutcomes`), for any bytes
that come in; what has to be found is which of them fit together.

What makes them fit are the numbers of replies.  A server that gets the command and the stream
either takes the whole file and gives two replies, or it has opened nothing and gives one at most
(`Parts.streamed`); so a client that gets two has a server that took all of it.  And whatever
comes in after the command, a server that has opened a file gives two replies (`Parts.command`); so
a client that was refused or left without a reply has a server that opened nothing.  In this way
the outcomes in which the one has done its part and the other has not are excluded, without a look
at the order of the steps.

## Histories

That every session is correct is an induction on the history (`fileStore`), with the promise about
the files as its invariant: a session begins with the files that the one before has left.
-/

namespace IsrTransfer

open Effect Effect.Duplex Posix

variable {F G : Faults} {L : Lz4} {root : List UInt8} {l : Loc}

/-! ## Sessions -/

/-- What a client asks for, with the arguments of the operation. -/
inductive Request where
  | sendFile : (remotePath localFile : List UInt8) → (flags : UInt8) → (blockSize : Nat) → Request
  | sendMkdir : (remotePath : List UInt8) → Request
  | recv : (remotePath localDir : List UInt8) → (flags : UInt8) → (blockSize : Nat) → Request
  | downloadFile : (remotePath localPath : List UInt8) → (flags : UInt8) → (blockSize : Nat) →
      Request

namespace Request

def program (L : Lz4) (fuel : Nat) : Request → Prog Int
  | sendFile remotePath localFile flags blockSize =>
    isrCliSendFile L fuel remotePath localFile flags blockSize
  | sendMkdir remotePath => isrCliSendMkdir remotePath
  | recv remotePath localDir flags blockSize =>
    isrCliRecv L fuel remotePath localDir flags blockSize
  | downloadFile remotePath localPath flags blockSize =>
    isrCliDownloadFile L fuel remotePath localPath flags blockSize

def remotePath : Request → List UInt8
  | sendFile remotePath _ _ _ => remotePath
  | sendMkdir remotePath => remotePath
  | recv remotePath _ _ _ => remotePath
  | downloadFile remotePath _ _ _ => remotePath

def source : Request → Option (List UInt8)
  | sendFile _ localFile _ _ => some localFile
  | _ => none

def destination : Request → Option (List UInt8)
  | recv remotePath localDir _ _ =>
    some (snprintfPath localDir (basename remotePath) isrPathMax)
  | downloadFile _ localPath _ _ => some localPath
  | _ => none

/-- The block size is in order. -/
def Blocks (L : Lz4) : Request → Prop
  | sendFile _ _ flags blockSize => BlocksOk L flags blockSize
  | sendMkdir _ => True
  | recv _ _ flags blockSize => BlocksOk L flags blockSize
  | downloadFile _ _ flags blockSize => BlocksOk L flags blockSize

/-- A directory on the server is listed. -/
def Lists : Request → Prop
  | recv _ _ _ _ => True
  | _ => False

end Request

/-- A session: what is asked for, the systems of the client and the server before and after
it, and what the two have returned.  The server has not been asked if there was no
connection. -/
structure Session where
  request : Request
  client : Sys
  client' : Sys
  result : Int
  server : Sys
  server' : Sys
  handled : Option Int

/-- No memory is missing, and reads and writes succeed. -/
structure Posix.Faults.Quiet (F : Faults) : Prop where
  alloc : F.alloc = false
  reads : F.reads = false
  writes : F.writes = false

namespace Session

/-- The session is complete: both sides have gone from their first step to their last. -/
def Runs (F G : Faults) (L : Lz4) (root : List UInt8) (e : Session) : Prop :=
  ∃ fuel fuel' d, Run (Sys.step F) (Sys.step G)
      (initial (e.request.program L fuel) e.client (serveConnection L fuel' root) e.server) d ∧
    d.client = .ret e.result ∧ d.clientSys = e.client' ∧ d.serverSys = e.server' ∧
    ((d.connected = false ∧ e.handled = none) ∨
      (d.connected = true ∧ ∃ r, d.server = .ret r ∧ e.handled = some r))

/-- The arguments are C strings, the length of the path fits in its field, and the files of
the client are such as can be sent and do not change. -/
structure Fits (L : Lz4) (e : Session) : Prop where
  string : (0 : UInt8) ∉ e.request.remotePath
  length : e.request.remotePath.length < 65536
  blocks : e.request.Blocks L
  still : e.client.script = none
  source : ∀ localFile, e.request.source = some localFile → Uploadable e.client localFile

/-- What the session does to the store. -/
def apply (l : Loc) (σ : Loc → Option (List UInt8)) (e : Session) : Loc → Option (List UInt8) :=
  match e.request.source with
  | some localFile =>
    if e.result = 0 then
      fun k => if k = placeOf l e.request.remotePath then e.client.bytesAt localFile else σ k
    else σ
  | none => σ

/-- What a session may do to the server's files, and what it gets. -/
structure Correct (root : List UInt8) (l : Loc) (e : Session) : Prop where
  /-- A file that has been sent is stored as it is. -/
  sent : ∀ localFile, e.request.source = some localFile → e.result = 0 →
    e.handled = some 0 ∧ ∃ content, e.client.bytesAt localFile = some content ∧
      StoredAt root l e.server e.request.remotePath content e.server'
  /-- Otherwise no file changes. -/
  unchanged : (e.request.source = none ∨ e.result ≠ 0) →
    ∀ k, e.server'.fs.contents k = e.server.fs.contents k
  /-- A file that has been received is the one that is stored. -/
  received : ∀ outPath, e.request.destination = some outPath → e.result = 0 →
    (∃ content, e.server.resolve (root ++ slash :: e.request.remotePath) =
        some (placeOf l e.request.remotePath) ∧
      e.server.fs.contents (placeOf l e.request.remotePath) = some content ∧
      e.client'.bytesAt outPath = some content) ∨
    (e.request.Lists ∧ e.server.fs.node (placeOf l e.request.remotePath) = some .dir ∧
      e.client'.fs = e.client.fs)

/-- A session that fails has changed no file. -/
theorem Correct.of_failure {e : Session} (hres : e.result ≠ 0)
    (hsame : ∀ k, e.server'.fs.contents k = e.server.fs.contents k) : e.Correct root l :=
  ⟨fun _ _ h => absurd h hres, fun _ => hsame, fun _ _ h => absurd h hres⟩

/-! ## A session in two parts -/

/-- In a complete run each side has come from its start to its end, and if they have been connected
each has received what the other has sent. -/
theorem complete_run {p q : Prog Int} {s t : Sys} {d : Duplex OsOp Sys Int Int} {r : Int}
    (hrun : Run (Sys.step F) (Sys.step G) (initial p s q t) d) (hret : d.client = .ret r)
    (hend : d.connected = true → ∃ c, d.server = .ret c) :
    (d.connected = false ∧ d.serverSys = t ∧ ∃ v, Reaches (machine F false true) p
      (Proc.start s []) (.ret r) v ∧ v.sys = d.clientSys ∧ v.tx = []) ∨
    (d.connected = true ∧ ∃ up down,
      (∃ v, Reaches (machine F false true) p (Proc.start s []) (.ret r) v ∧
        v.sys = d.clientSys ∧ v.input = down ∧ v.tx = up) ∧
      ∃ c w, Reaches (machine G false true) q (Proc.start t up) (.ret c) w ∧
        w.sys = d.serverSys ∧ w.tx = down ∧ d.server = .ret c) := by
  cases localRuns hrun with
  | before hconn hq ht _ _ _ hclient =>
    rw [hret] at hclient
    exact Or.inl ⟨hconn, ht, _, hclient, rfl, rfl⟩
  | after up down hconn hclient hserver =>
    obtain ⟨c, hc⟩ := hend hconn
    have hclient := hclient [] (Or.inr rfl)
    have hserver := hserver [] (Or.inr rfl)
    rw [hret, List.append_nil] at hclient
    rw [hc, List.append_nil] at hserver
    exact Or.inr ⟨hconn, up, down, ⟨_, hclient, rfl, rfl, rfl⟩, c, _, hserver, rfl, rfl, hc⟩

/-- What each side has done in a complete session with a connection: the client has received
`down` and sent `up`, the server the other way round. -/
structure Parts (F G : Faults) (L : Lz4) (root : List UInt8) (e : Session) (up down : List UInt8) :
    Prop where
  client : ∃ fuel v, Reaches (machine F false true) (e.request.program L fuel)
    (Proc.start e.client []) (.ret e.result) v ∧ v.sys = e.client' ∧ v.input = down ∧ v.tx = up
  server : ∃ fuel r w, Reaches (machine G false true) (serveConnection L fuel root)
    (Proc.start e.server up) (.ret r) w ∧ w.sys = e.server' ∧ w.tx = down ∧ e.handled = some r

/-- Without a connection the server has not begun. -/
structure Alone (F : Faults) (L : Lz4) (e : Session) : Prop where
  client : ∃ fuel v, Reaches (machine F false true) (e.request.program L fuel)
    (Proc.start e.client []) (.ret e.result) v ∧ v.sys = e.client' ∧ v.tx = []
  server : e.server' = e.server

/-- What each side has done in a complete session. -/
def Halves (F G : Faults) (L : Lz4) (root : List UInt8) (e : Session) : Prop :=
  e.Alone F L ∨ ∃ up down, e.Parts F G L root up down

theorem Runs.halves {e : Session} (h : e.Runs F G L root) : e.Halves F G L root := by
  obtain ⟨fuel, fuel', d, hrun, hret, hc, hs, hend⟩ := h
  have hserver : d.connected = true → ∃ c, d.server = .ret c := fun hconn => by
    obtain ⟨-, c, hc, -⟩ := hend.resolve_left fun h => by simp [hconn] at h
    exact ⟨c, hc⟩
  rcases complete_run hrun hret hserver with ⟨-, ht, v, hclient, hv, htx⟩ |
    ⟨hconn, up, down, ⟨v, hclient, hv, hin, htx⟩, c, w, hserver, hw, hdown, hret'⟩
  · exact Or.inl ⟨⟨fuel, v, hclient, hv.trans hc, htx⟩, by rw [← hs, ht]⟩
  · obtain ⟨-, r, hr, hhandled⟩ := hend.resolve_left fun h => by simp [hconn] at h
    rw [hret', Program.ret.injEq] at hr
    subst hr
    exact Or.inr ⟨up, down, ⟨fuel, v, hclient, hv.trans hc, hin, htx⟩,
      ⟨fuel', c, w, hserver, hw.trans hs, hdown, hhandled⟩⟩

/-- The server's files stay as promised if directories have been added at most. -/
theorem Parts.served {e : Session} {up down : List UInt8} (h : e.Parts F G L root up down)
    (ht : Served root l e.server) (hdirs : e.server.fs.DirsAdded e.server'.fs) :
    Served root l e.server' := by
  obtain ⟨fuel, r, w, hrun, hw, -, -⟩ := h.server
  refine ht.of_dirsAdded hdirs ?_
  rw [← hw]
  exact script_of_reaches hrun ht.still

/-! ## Uploads

The server's part of an upload is a matter of the bytes that have come: the command alone, or
the command and the stream.  The client's part says how many replies it has seen.  A client that
returns 0 has seen two, and the second says that the file has been taken; that does not fit a
server that has opened nothing. -/

section Upload

variable {remotePath localFile up down : List UInt8} {flags : UInt8} {blockSize : Nat}
variable {e : Session}

/-- The client sees one reply, or none. -/
def OneReply (down : List UInt8) : Prop :=
  down.length < sizeofResponse ∨ down.headD 0 = isrResultOtherFailure

/-- Two replies are more than that. -/
theorem not_oneReply (present : Bool) (r : Int) :
    ¬ OneReply (acceptance present ++ resultBytes r) := by
  rintro (h | h)
  · rw [List.length_append, length_acceptance] at h
    omega
  · cases present with
    | false =>
      have heq : isrSendResponseCreating = isrResultOtherFailure := h
      exact absurd heq (by decide)
    | true =>
      have heq : isrSendResponseOverwriting = isrResultOtherFailure := h
      exact absurd heq (by decide)

/-- What the server makes of the command alone: it opens no file, or it gives two replies to a
client that has not asked for a directory. -/
theorem Parts.command (h : e.Parts F G L root up down) (hfit : e.Fits L) {n : Nat}
    (hup : up = sendCommandBytes e.request.remotePath flags blockSize n) :
    e.server.fs.DirsAdded e.server'.fs ∨
      (hasFlag flags isrFlagCreateDirectory = false ∧ ¬ OneReply down) := by
  obtain ⟨fuel, r, w, hrun, hw, hdown, -⟩ := h.server
  have hout : Ensures (machine G false true) Anything (serveConnection L fuel root)
      (SendOutcome (fun _ _ => True) root e.request.remotePath flags e.server)
      (Proc.start e.server (sendCommandBytes e.request.remotePath flags blockSize n ++ [])) :=
    ensures_serveConnection_send hfit.string hfit.length takes_something
  rw [List.append_nil, ← hup] at hout
  cases hout.of_reaches hrun with
  | unopened hdirs _ =>
    rw [← hw]
    exact Or.inl hdirs.fs
  | received present hno _ _ _ _ htx _ =>
    rw [← hdown, htx]
    exact Or.inr ⟨hno, not_oneReply present _⟩

/-- What the server makes of the command and the stream: it takes the file and says so, or
it has opened nothing and gives one reply at most. -/
theorem Parts.streamed (hG : G.Quiet) (h : e.Parts F G L root up down) (hfit : e.Fits L)
    {content stream : List UInt8} (hblocks : BlocksOk L flags blockSize)
    (hlen : content.length < 2 ^ 55) (hstream : StreamOf L flags blockSize content stream)
    (hup : up = sendCommandBytes e.request.remotePath flags blockSize content.length ++ stream) :
    (e.server.fs.DirsAdded e.server'.fs ∧ down.length ≤ sizeofResponse) ∨
      (e.handled = some 0 ∧
        (∃ present, down = acceptance present ++ resultBytes (byteSum content)) ∧
        ∃ full, isrValidatePath e.request.remotePath ≠ -1 ∧
          resolvedPath e.server root e.request.remotePath isrPathMax = some full ∧
          Written e.server full content e.server') := by
  obtain ⟨fuel, r, w, hrun, hw, hdown, hhandled⟩ := h.server
  have hout : Ensures (machine G false true) Anything (serveConnection L fuel root)
      (SendOutcome (fun data result => data = content ∧ result = byteSum content) root
        e.request.remotePath flags e.server) (Proc.start e.server up) := by
    rw [hup]
    exact ensures_serveConnection_send hfit.string hfit.length
      (takes_stream hG.writes hG.alloc hblocks hlen hstream (fun hflag => hblocks.mod hflag)
        (Nat.mod_eq_of_lt (lt_word64 hlen)))
  cases hout.of_reaches hrun with
  | unopened hdirs htx =>
    rw [hw] at hdirs
    rw [hdown] at htx
    exact Or.inl ⟨hdirs.fs, htx⟩
  | @received full data result present _ hvalid hfull hP hwritten htx hr =>
    obtain ⟨rfl, rfl⟩ := hP
    rw [hw] at hwritten
    rw [hdown] at htx
    have hstatus : resultStatus (byteSum data) = 0 := if_neg (by omega)
    rw [hstatus] at hr
    rw [hr] at hhandled
    exact Or.inr ⟨hhandled, ⟨present, htx⟩, full, hvalid, hfull, hwritten⟩

/-- The second reply says that the file has been taken. -/
theorem second_reply {content : List UInt8} (present : Bool) :
    2 * sizeofResponse ≤ (acceptance present ++ resultBytes (byteSum content)).length ∧
      ((acceptance present ++ resultBytes (byteSum content)).drop sizeofResponse).headD 0 =
        isrResultOk := by
  constructor
  · rw [List.length_append, length_acceptance, length_resultBytes]
    omega
  · rw [List.drop_left' (length_acceptance present)]
    change (if (byteSum content : Int) = -1 then isrResultOtherFailure
      else if (byteSum content : Int) = -2 then isrResultChecksumBad else isrResultOk) = isrResultOk
    rw [if_neg (by omega), if_neg (by omega)]

/-- **An upload stores the file, or it fails and changes no file.**  The two halves of the
session are compared by the bytes that each has sent: a client that has seen the second reply
has sent everything, and a server that has sent it has taken everything. -/
theorem Halves.upload (hF : F.Quiet) (hG : G.Quiet) (h : e.Halves F G L root) (hfit : e.Fits L)
    (ht : Served root l e.server)
    (hreq : e.request = .sendFile remotePath localFile flags blockSize) :
    e.Correct root l ∧ Served root l e.server' := by
  have hblocks : BlocksOk L flags blockSize := by
    have hb := hfit.blocks
    rwa [hreq] at hb
  have hsource : e.request.source = some localFile := by rw [hreq]; rfl
  have hlocal := hfit.source localFile hsource
  have hout : ∀ {fuel v}, Reaches (machine F false true) (e.request.program L fuel)
      (Proc.start e.client []) (.ret e.result) v →
      UploadOutcome L e.request.remotePath localFile flags blockSize e.client e.result v := by
    intro fuel v hrun
    rw [hreq] at hrun ⊢
    exact (ensures_isrCliSendFile_outcome hF.reads hF.alloc hblocks hfit.still
      hlocal).of_reaches hrun
  rcases h with halone | ⟨up, down, hparts⟩
  · obtain ⟨fuel, v, hrun, -, htx⟩ := halone.client
    have hres : e.result ≠ 0 := by
      cases hout hrun with
      | nothing hres _ => exact hres
      | refused hres _ _ _ => exact hres
      | streamed _ _ hup _ =>
        rw [htx] at hup
        exact absurd hup (by simp [sendCommandBytes])
    rw [halone.server]
    exact ⟨.of_failure hres fun k => by rw [halone.server], ht⟩
  · obtain ⟨fuel, v, hrun, -, hin, htx⟩ := hparts.client
    have hfailed : e.result ≠ 0 → e.server.fs.DirsAdded e.server'.fs →
        e.Correct root l ∧ Served root l e.server' :=
      fun hres hdirs => ⟨.of_failure hres hdirs.contents, hparts.served ht hdirs⟩
    cases hout hrun with
    | nothing hres hnil =>
      obtain ⟨fuel', r, w, hrun', hw, -, -⟩ := hparts.server
      rw [← htx, hnil] at hrun'
      have hsys := ensures_serveConnection_nil.of_reaches hrun'
      refine hfailed hres ?_
      rw [← hw, show w.sys = e.server from hsys]
      exact FS.DirsAdded.refl _
    | refused hres _ hup hdown =>
      rw [htx] at hup
      rw [hin] at hdown
      exact hfailed hres ((hparts.command hfit hup).resolve_right fun h => h.2 hdown)
    | @streamed content stream hbytes hstream hup hiff =>
      rw [htx] at hup
      rw [hin] at hiff
      have hlen := hlocal.short content hbytes
      rcases hparts.streamed hG hfit hblocks hlen hstream hup with
        ⟨hdirs, hone⟩ | ⟨hhandled, ⟨present, hdown⟩, full, hvalid, hfull, hwritten⟩
      · refine hfailed (fun hres => ?_) hdirs
        have htwo := (hiff.mp hres).1
        unfold sizeofResponse at htwo hone
        omega
      · have hres : e.result = 0 := by
          rw [hiff, hdown]
          exact second_reply present
        obtain ⟨hstored, hserved⟩ := ht.written hvalid hfull hwritten hlen
        refine ⟨⟨fun localFile' hsource' _ => ⟨hhandled, content, ?_, hstored⟩, ?_, ?_⟩, hserved⟩
        · obtain rfl := Option.some.inj (hsource.symm.trans hsource')
          exact hbytes
        · exact fun h => absurd h (by simp [hsource, hres])
        · intro outPath hdest
          rw [hreq] at hdest
          exact absurd hdest (by simp [Request.destination])

end Upload

/-! ## Directories -/

/-- **A session that makes a directory changes no file.** -/
theorem Halves.mkdir {e : Session} {remotePath : List UInt8} (h : e.Halves F G L root)
    (hfit : e.Fits L) (ht : Served root l e.server) (hreq : e.request = .sendMkdir remotePath) :
    e.Correct root l ∧ Served root l e.server' := by
  suffices hdirs : e.server.fs.DirsAdded e.server'.fs ∧ e.server'.script = none from
    ⟨⟨fun _ hsource => absurd hsource (by simp [hreq, Request.source]),
      fun _ => hdirs.1.contents,
      fun _ hdest => absurd hdest (by simp [hreq, Request.destination])⟩,
      ht.of_dirsAdded hdirs.1 hdirs.2⟩
  rcases h with halone | ⟨up, down, hparts⟩
  · rw [halone.server]
    exact ⟨FS.DirsAdded.refl _, ht.still⟩
  · obtain ⟨fuel, v, hrun, -, -, htx⟩ := hparts.client
    have hup : up = sendCommandBytes e.request.remotePath isrFlagCreateDirectory 0 0 := by
      rw [hreq] at hrun ⊢
      rw [← htx]
      exact ensures_isrCliSendMkdir_outcome.of_reaches hrun
    have hdirs := (hparts.command hfit hup).resolve_right fun h => absurd h.1 (by decide)
    exact ⟨hdirs, (hparts.served ht hdirs).still⟩

/-! ## Downloads

A download only makes the server read.  A client that returns 0 has received a stream that is
whole, with its checksum, and what the server has sent is the stream of the file that is stored. -/

section Download

variable {outPath : List UInt8} {flags : UInt8} {blockSize : Nat} {e : Session}

/-- The outcomes of the operation of a session, as a property of the operation. -/
def Downloads (F : Faults) (L : Lz4) (outPath : List UInt8) (flags : UInt8) (blockSize : Nat)
    (e : Session) : Prop :=
  ∀ (fuel : Nat) (down : List UInt8) (P : List UInt8 → Int → Prop),
    Takes F (fun fd => receiveFile L fuel fd flags blockSize (confirmationOf down).effectiveLength)
      (down.drop sizeofRecvConfirmation) P →
    Ensures (machine F false true) Anything (e.request.program L fuel)
      (fun r v => v.input = down → DownloadOutcome e.request.Lists P
        (recvCommandBytes e.request.remotePath flags blockSize) outPath e.client r v)
      (Proc.start e.client [])

/-- What a client that succeeds has got, and from where. -/
theorem received_cases {fuel : Nat} {path : List UInt8} {lists : Prop} {t c : Sys}
    {r : Int} {v w : World} (ht : Served root l t) (hF : F.Quiet)
    (hblocks : BlocksOk L flags blockSize) (hin : v.input = w.tx) (hres : r = 0)
    (hclient : ∀ P, Takes F (fun fd => receiveFile L fuel fd flags blockSize
        (confirmationOf w.tx).effectiveLength) (w.tx.drop sizeofRecvConfirmation) P →
      DownloadOutcome lists P (recvCommandBytes path flags blockSize) outPath c r v)
    (hserver : RecvOutcome (StreamOf L flags blockSize) root path t w) :
    (∃ content, t.resolve (root ++ slash :: path) = some (placeOf l path) ∧
      t.fs.contents (placeOf l path) = some content ∧ v.sys.bytesAt outPath = some content) ∨
    (lists ∧ t.fs.node (placeOf l path) = some .dir ∧ v.sys.fs = c.fs) := by
  -- what the confirmation says
  have htype : ∀ {s m rest}, w.tx = confirmation s m ++ rest →
      (confirmationOf v.input).responseType = s :=
    fun h => by rw [hin, h, confirmationOf_append]
  have htype' : ∀ {s m}, w.tx = confirmation s m → (confirmationOf v.input).responseType = s :=
    fun {s m} h => @htype s m [] (by rw [h, List.append_nil])
  cases hserver with
  | nothing hnone =>
    exfalso
    have hoff : ∀ {s}, (s = isrRecvTypeFile ∨ s = isrRecvTypeDirectory) →
        sizeofRecvConfirmation ≤ v.input.length → (confirmationOf v.input).responseType ≠ s := by
      intro s hs hlen heq
      rcases hnone with hshort | ⟨s', m, htx, hf, hd⟩
      · rw [hin] at hlen
        omega
      · rw [htype' htx] at heq
        subst heq
        exact hs.elim hf hd
    cases hclient _ takes_something with
    | failed hne => exact hne hres
    | listed _ _ hlen ht => exact hoff (Or.inr rfl) hlen ht
    | received _ hlen ht => exact hoff (Or.inl rfl) hlen ht
  | directory m hvalid hfull hk hdir htx _ =>
    obtain rfl := ht.place hvalid hfull (Sys.DirsAdded.refl _) hk
    cases hclient _ takes_something with
    | failed hne => exact absurd hres hne
    | listed hlists _ _ _ hfs => exact Or.inr ⟨hlists, hdir, hfs⟩
    | received _ _ h =>
      rw [htype htx] at h
      exact absurd h (by decide)
  | @file full content data k hvalid hfull hk hcontents htx hdata =>
    obtain rfl := ht.place hvalid hfull (Sys.DirsAdded.refl _) hk
    have hlen := ht.short _ content (FS.suffix_descend l _) hcontents
    rw [ht.resolve_eq hvalid hfull (Sys.DirsAdded.refl _)] at hk
    have hconf : (confirmation isrRecvTypeFile content.length).length = sizeofRecvConfirmation :=
      length_recvConfirmation _
    rcases hdata with rfl | hstream
    · -- the server has not been able to open the file
      have hnil : w.tx.drop sizeofRecvConfirmation = [] := by
        rw [htx, List.drop_left' hconf]
      have hout := hclient (fun _ r => r = -1) (by rw [hnil]; exact takes_nothing)
      cases hout with
      | failed hne => exact absurd hres hne
      | listed _ _ _ h =>
        rw [htype htx] at h
        exact absurd h (by decide)
      | received _ _ _ hP hok => exact absurd (Or.inl hP) hok
    · have hout := hclient _ (by
        rw [htx, List.drop_left' hconf, confirmationOf_append]
        exact takes_stream hF.writes hF.alloc hblocks hlen hstream (fun _ => rfl)
          (Nat.mod_eq_of_lt (lt_word64 hlen)))
      cases hout with
      | failed hne => exact absurd hres hne
      | listed _ _ _ h =>
        rw [htype htx] at h
        exact absurd h (by decide)
      | received _ _ _ hP _ hwritten =>
        obtain ⟨rfl, -⟩ := hP
        obtain ⟨j, hj, hbytes⟩ := hwritten.bytesAt
        exact Or.inl ⟨_, hk, hcontents, by rw [Sys.bytesAt_of_resolve hj, hbytes]⟩

/-- **A download changes no file of the server, and gets what is stored.**  This is one lemma
for the two operations that download a file; they differ in the local path only. -/
theorem Halves.download (hF : F.Quiet) (hG : G.Quiet) (h : e.Halves F G L root) (hfit : e.Fits L)
    (ht : Served root l e.server) (hsource : e.request.source = none)
    (hdest : e.request.destination = some outPath) (hblocks : BlocksOk L flags blockSize)
    (hdown : Downloads F L outPath flags blockSize e) :
    e.Correct root l ∧ Served root l e.server' := by
  rcases h with halone | ⟨up, down, hparts⟩
  · -- the client does not return without a connection
    obtain ⟨fuel, v, hrun, -, htx⟩ := halone.client
    have hcommand : recvCommandBytes e.request.remotePath flags blockSize ≠ [] :=
      List.cons_ne_nil _ _
    cases (hdown fuel v.input _ takes_something).of_reaches hrun rfl with
    | failed _ hup =>
      rw [htx] at hup
      rcases hup with hup | hup
      · exact absurd hup.symm hcommand
      · exact absurd hup (by simp)
    | listed _ hup =>
      rw [htx] at hup
      exact absurd hup (by simp)
    | received hup =>
      rw [htx] at hup
      exact absurd hup (by simp)
  · obtain ⟨fuel, v, hrun, hv, hin, htx⟩ := hparts.client
    have hclient : ∀ P, Takes F (fun fd => receiveFile L fuel fd flags blockSize
        (confirmationOf down).effectiveLength) (down.drop sizeofRecvConfirmation) P →
        DownloadOutcome e.request.Lists P (recvCommandBytes e.request.remotePath flags blockSize)
          outPath e.client e.result v :=
      fun P hP => (hdown fuel down P hP).of_reaches hrun hin
    obtain ⟨rest, hup⟩ : ∃ rest,
        up = recvCommandBytes e.request.remotePath flags blockSize ++ rest := by
      rw [← htx]
      cases hclient _ takes_something with
      | failed _ hup =>
        rcases hup with hup | hup
        · exact ⟨[], by rw [hup, List.append_nil]⟩
        · exact ⟨_, hup⟩
      | listed _ hup => exact ⟨_, hup⟩
      | received hup => exact ⟨_, hup⟩
    obtain ⟨fuel', r, w, hrun', hw, hdown', -⟩ := hparts.server
    rw [hup] at hrun'
    have hsize : ∀ full k content, isrValidatePath e.request.remotePath ≠ -1 →
        resolvedPath e.server root e.request.remotePath isrPathMax = some full →
        e.server.resolve full = some k → e.server.fs.contents k = some content →
        content.length < 2 ^ 55 := by
      intro full k content hvalid hfull hk hcontent
      obtain rfl := ht.place hvalid hfull (Sys.DirsAdded.refl _) hk
      exact ht.short _ content (FS.suffix_descend l _) hcontent
    obtain ⟨hfs, hserver⟩ := (ensures_serveConnection_recv
      (gives_stream hG.reads hG.alloc hblocks fun hflag => hblocks.mod hflag) hfit.string
      hfit.length ht.still hsize).of_reaches hrun'
    rw [hw] at hfs
    refine ⟨⟨fun _ h => absurd h (by simp [hsource]), fun _ k => by rw [hfs], ?_⟩,
      hparts.served ht (by rw [hfs]; exact FS.DirsAdded.refl _)⟩
    intro outPath' hdest' hres
    obtain rfl := Option.some.inj (hdest.symm.trans hdest')
    rw [← hv]
    rw [← hdown'] at hin hclient
    exact received_cases ht hF hblocks hin hres hclient hserver

end Download

/-- **Every session is a correct one**, and the root is served afterwards as well, so that the
next session may begin. -/
theorem Halves.correct {e : Session} (hF : F.Quiet) (hG : G.Quiet) (h : e.Halves F G L root)
    (hfit : e.Fits L) (ht : Served root l e.server) :
    e.Correct root l ∧ Served root l e.server' := by
  have hblocks := hfit.blocks
  cases hreq : e.request with
  | sendFile remotePath localFile flags blockSize => exact h.upload hF hG hfit ht hreq
  | sendMkdir remotePath => exact h.mkdir hfit ht hreq
  | recv remotePath localDir flags blockSize =>
    rw [hreq] at hblocks
    refine h.download hF hG hfit ht (by rw [hreq]; rfl) (by rw [hreq]; rfl) hblocks ?_
    intro fuel down P hP
    rw [hreq]
    exact ensures_isrCliRecv_outcome hP
  | downloadFile remotePath localPath flags blockSize =>
    rw [hreq] at hblocks
    refine h.download hF hG hfit ht (by rw [hreq]; rfl) (by rw [hreq]; rfl) hblocks ?_
    intro fuel down P hP
    rw [hreq]
    exact ensures_isrCliDownloadFile_outcome hP

/-- What a correct session has done is what it does to the store. -/
theorem Correct.contents {e : Session} (h : e.Correct root l) :
    e.server'.fs.contents = e.apply l e.server.fs.contents := by
  funext k
  unfold apply
  cases hsource : e.request.source with
  | none => exact h.unchanged (Or.inl hsource) k
  | some localFile =>
    by_cases hres : e.result = 0
    · obtain ⟨-, content, hbytes, hstored⟩ := h.sent localFile hsource hres
      simp only [hres, if_true]
      by_cases hk : k = placeOf l e.request.remotePath
      · rw [if_pos hk, hk, hbytes, hstored.bytes]
      · rw [if_neg hk, hstored.others k hk]
    · simp only [if_neg hres]
      exact h.unchanged (Or.inr hres) k

end Session

/-! ## Histories -/

/-- The server has had the sessions, one after the other. -/
inductive History (F G : Faults) (L : Lz4) (root : List UInt8) : Sys → List Session → Sys → Prop
  | nil (t : Sys) : History F G L root t [] t
  | cons {e : Session} {es : List Session} {t' : Sys} : e.Runs F G L root →
      History F G L root e.server' es t' → History F G L root e.server (e :: es) t'

/-- **The server is a store of files.**  In every history each session is correct, what the
server has before it is what the sessions up to there have stored, and the same holds in the
end. -/
theorem fileStore (L : Lz4) {root : List UInt8} {l : Loc} {t t' : Sys} {es : List Session}
    {F G : Faults} (hF : F.Quiet) (hG : G.Quiet) (ht : Served root l t)
    (hes : ∀ e ∈ es, e.Fits L) (h : History F G L root t es t') :
    (∀ e ∈ es, e.Correct root l) ∧
    (∀ before e after, es = before ++ e :: after →
      e.server.fs.contents = before.foldl (Session.apply l) t.fs.contents) ∧
    t'.fs.contents = es.foldl (Session.apply l) t.fs.contents := by
  induction h with
  | nil t =>
    refine ⟨fun e he => absurd he List.not_mem_nil, fun before e after hsplit => ?_, rfl⟩
    exact absurd hsplit (by simp)
  | @cons e es t' hrun _ ih =>
    obtain ⟨hcorrect, hserved⟩ := hrun.halves.correct hF hG (hes e List.mem_cons_self) ht
    obtain ⟨hall, hstore, hend⟩ := ih hserved fun e' he => hes e' (List.mem_cons_of_mem _ he)
    rw [hcorrect.contents] at hend
    refine ⟨fun e' he => ?_, fun before e' after hsplit => ?_, hend⟩
    · rcases List.mem_cons.mp he with rfl | he
      · exact hcorrect
      · exact hall e' he
    · cases before with
      | nil =>
        obtain ⟨rfl, -⟩ := List.cons.inj hsplit
        rfl
      | cons e₁ before =>
        obtain ⟨rfl, hrest⟩ := List.cons.inj hsplit
        rw [hstore before e' after hrest, hcorrect.contents]
        rfl

/-! ## A history -/

def playedOut (L : Lz4) (root : List UInt8) (n : Nat) (request : Request) (client server : Sys) :
    Duplex OsOp Sys Int Int :=
  turns (fun _ s op => s.answer op) n
    (initial (request.program L n) client (serveConnection L n root) server)

def played (L : Lz4) (root : List UInt8) (n : Nat) (request : Request) (client server : Sys) :
    Session :=
  let d := playedOut L root n request client server
  ⟨request, client, d.clientSys, (returned d.client).getD 0, server, d.serverSys, returned d.server⟩

theorem runs_played {n : Nat} {request : Request} {client server : Sys} {r c : Int}
    (hc : returned (playedOut L root n request client server).client = some r)
    (hs : returned (playedOut L root n request client server).server = some c)
    (hconn : (playedOut L root n request client server).connected = true) :
    (played L root n request client server).Runs F G L root := by
  refine ⟨n, n, playedOut L root n request client server, ?_, ?_, rfl, rfl, Or.inr ⟨hconn, c, ?_⟩⟩
  · exact run_turns (fun _ _ _ _ _ h => Sys.step_of_answer h)
      (fun _ _ _ _ _ h => Sys.step_of_answer h) n
  · rw [eq_ret_of_returned hc]
    change Program.ret r =
      .ret ((returned (playedOut L root n request client server).client).getD 0)
    rw [hc]
    rfl
  · exact ⟨eq_ret_of_returned hs, hs⟩

/-- `/f` is sent to an empty server. -/
def stored : Session :=
  played shortLz4 [slash] 200 (.sendFile [0x66] [slash, 0x66] isrFlagUseCompression 8) threeBytes
    (.initial .empty)

/-- It is fetched as `/g`. -/
def fetched : Session :=
  played shortLz4 [slash] 200 (.downloadFile [0x66] [slash, 0x67] 0 8) (.initial .empty)
    stored.server'

theorem served_empty : Served [slash] [] (.initial .empty) := by
  have hfile : ∀ {k : Loc} {i : Nat}, ¬ FS.empty.node k = some (.file i) :=
    fun h => absurd (FS.node_empty h) (by simp)
  constructor
  · exact ⟨rfl, rfl, by decide⟩
  · exact fun k t _ h => absurd (FS.node_empty h) (by simp)
  · exact fun k k' i _ h => absurd h hfile
  · rfl
  · intro k content _ h
    obtain ⟨i, hi, -⟩ := FS.contents_eq_some.mp h
    exact absurd hi hfile

theorem fileStore_threeBytes :
    (stored.result = 0 ∧ fetched.result = 0) ∧
    (∀ e ∈ [stored, fetched], e.Correct [slash] []) ∧
    (∀ before e after, [stored, fetched] = before ++ e :: after →
      e.server.fs.contents = before.foldl (Session.apply []) FS.empty.contents) ∧
    fetched.server'.fs.contents = [stored, fetched].foldl (Session.apply []) FS.empty.contents := by
  refine ⟨by decide +kernel, ?_⟩
  refine fileStore (F := Faults.none) (G := Faults.none) shortLz4 ⟨rfl, rfl, rfl⟩ ⟨rfl, rfl, rfl⟩
    served_empty ?_ ?_
  · intro e he
    rcases List.mem_pair.mp he with rfl | rfl
    · constructor
      · decide
      · decide
      · exact fun _ => ⟨by decide, by decide, shortLz4_roundTrip (by decide)⟩
      · rfl
      · intro localFile hsource
        obtain rfl := Option.some.inj hsource
        constructor
        · intro k hk
          obtain rfl : [[0x66]] = k := Option.some.inj hk
          decide
        · intro content hbytes
          obtain rfl : [1, 2, 3] = content := Option.some.inj hbytes
          decide
    · constructor
      · decide
      · decide
      · exact fun h => absurd h (by decide)
      · rfl
      · intro localFile hsource
        exact absurd (show none = some localFile from hsource) (by simp)
  · have hstored : stored.Runs Faults.none Faults.none shortLz4 [slash] := by
      refine runs_played (r := 0) (c := 0) ?_ ?_ ?_ <;> decide +kernel
    have hfetched : fetched.Runs Faults.none Faults.none shortLz4 [slash] := by
      refine runs_played (r := 0) (c := 0) ?_ ?_ ?_ <;> decide +kernel
    exact .cons hstored (.cons hfetched (.nil _))

end IsrTransfer
