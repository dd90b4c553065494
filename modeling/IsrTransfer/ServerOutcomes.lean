import IsrTransfer.NoClobber
import IsrTransfer.Replies
import IsrTransfer.WholeFiles

/-!
# What a connection has done in the end

The handlers' rules have a case for each way a handler can go.  For what a client and the
files of the server see of it, few outcomes are left: a SEND has opened no file and given at
most one reply, or it has written to the file its path leads to and given two
(`SendOutcome`); a RECV has changed nothing, and has confirmed nothing, a directory or a
file, which it then streams (`RecvOutcome`).

The connection is one that does not break, and what comes in is all that the client sends.  A
client may send less than it has announced, or another stream; what is then made of the data is
left open, as a property `P` of what has been written and of the result.  `Takes` and `Gives` say
of a receiver and of a sender that they satisfy such a property, for a file that is opened under
any path.  They have three instances here: any stream, of which something is made
(`takes_something`), no stream at all (`takes_nothing`), and the stream of a file of the announced
length (`takes_stream`, `gives_stream`), which is taken and given as a whole if reads, writes and
allocations do not fail.

So the outcomes are proved once, and are used for sessions in which everything goes well as for
those in which the stream is cut off.
-/

namespace IsrTransfer

open Effect Posix

variable {G : Faults} {L : Lz4} {fuel : Nat} {root path rest : List UInt8} {flags : UInt8}
variable {blockSize n : Nat} {s : Sys}

/-- After some directories had been made, the file that `path` leads to was opened, and `data`
has been written to it. -/
def Written (s : Sys) (path data : List UInt8) (s' : Sys) : Prop :=
  ∃ s₁ fd s₂, s.DirsAdded s₁ ∧ s₁.openWrite path = (some fd, s₂) ∧ s' = s₂.write fd data

/-- What a receiver does that finds `rest` on its connection, as far as `P` says it. -/
def Takes (G : Faults) (receive : Fd → Prog Int) (rest : List UInt8)
    (P : List UInt8 → Int → Prop) : Prop :=
  ∀ (u : World) (fd : Fd), u.rx = rest → Ensures (machine G false true) Anything (receive fd)
    (fun r v => ∃ data k, P data r ∧ v = taken u fd data k) u

/-- Whatever there is, something is made of it. -/
theorem takes_something {b m : Nat} :
    Takes G (fun fd => receiveFile L fuel fd flags b m) rest (fun _ _ => True) :=
  fun _ _ _ => ensures_receiveFile_outline permits_anything (fun _ _ _ _ _ _ => trivial)
    (fun _ _ => trivial) fun _ data k => ⟨data, k, trivial, rfl⟩

/-- A stream for the announced length is taken as a whole. -/
theorem takes_stream {b m : Nat} {content : List UInt8} (hFw : G.writes = false)
    (hFa : G.alloc = false) (hblocks : BlocksOk L flags blockSize)
    (hlen : content.length < 2 ^ 55) (hstream : StreamOf L flags blockSize content rest)
    (hb : hasFlag flags isrFlagUseCompression = true → b = blockSize) (hm : m = content.length) :
    Takes G (fun fd => receiveFile L fuel fd flags b m) rest
      (fun data r => data = content ∧ r = byteSum content) := by
  intro u fd hrx
  subst hm
  have heq : receiveFile L fuel fd flags b content.length =
      receiveFile L fuel fd flags blockSize content.length := by
    unfold receiveFile
    by_cases hflag : hasFlag flags isrFlagUseCompression = true
    · rw [hb hflag]
    · rw [if_neg hflag, if_neg hflag]
  simp only [heq]
  have hall : u.rx = rest ++ [] := by rw [hrx, List.append_nil]
  refine ensures_receiveFile_whole permits_anything (fun _ _ _ _ _ => trivial) hFw hFa
    hblocks hlen (fun _ => trivial) hstream hall ?_
  exact ⟨content, rest.length, ⟨rfl, rfl⟩, rfl⟩

/-- Where nothing comes, receiving fails. -/
theorem takes_nothing {m : Nat} :
    Takes G (fun fd => receiveFile L fuel fd flags blockSize m) [] (fun _ r => r = -1) := by
  intro u fd hrx
  have hany := @takes_something G L fuel [] flags blockSize m u fd hrx
  refine (hany.and (ensures_receiveFile_nothing hrx)).weaken (fun _ _ _ _ => trivial) ?_
  rintro r v ⟨⟨data, k, -, rfl⟩, hr⟩
  exact ⟨data, k, hr, rfl⟩

/-- A block size that is in order fits into the header. -/
theorem BlocksOk.mod (h : BlocksOk L flags blockSize)
    (hflag : hasFlag flags isrFlagUseCompression = true) : blockSize % 256 ^ 4 = blockSize := by
  have hmax := (h hflag).2.1
  unfold lz4MaxInputSize at hmax
  exact Nat.mod_eq_of_lt (by omega)

/-! ## SEND

All runs of the handler on a connection with a complete SEND, sorted by what is left on the wire
and in the file system at the end. -/

/-- How a SEND can go.  `P` says what is made of the data that comes: what is written to the file,
and what the receiver returns. -/
inductive SendOutcome (P : List UInt8 → Int → Prop) (root path : List UInt8) (flags : UInt8)
    (s : Sys) (r : Int) (v : World) : Prop where
  /-- No file has been opened, and at most one reply has been sent. -/
  | unopened : s.DirsAdded v.sys → v.tx.length ≤ sizeofResponse →
      SendOutcome P root path flags s r v
  /-- A file has been opened, and what came has been written to it. -/
  | received {full data : List UInt8} {result : Int} (present : Bool) :
      hasFlag flags isrFlagCreateDirectory = false → isrValidatePath path ≠ -1 →
      resolvedPath s root path isrPathMax = some full → P data result →
      Written s full data v.sys → v.tx = acceptance present ++ resultBytes result →
      r = resultStatus result → SendOutcome P root path flags s r v

theorem length_refusal (message : String) : (refusal message).length = sizeofResponse :=
  length_sendResponse _ _

theorem length_acceptance (present : Bool) : (acceptance present).length = sizeofResponse :=
  length_sendResponse _ _

theorem length_mkdirReply (r : MkdirResult) : (mkdirReply r).length = sizeofResponse := by
  unfold mkdirReply
  split
  · exact length_refusal _
  · exact length_sendResponse _ _

theorem length_resultBytes (r : Int) : (resultBytes r).length = sizeofResponse :=
  length_sendResponse _ _

/-- One reply, after directories have been made. -/
theorem SendOutcome.of_sends {P : List UInt8 → Int → Prop} {r : Int} {w v : World}
    {data : List UInt8} (hdirs : s.DirsAdded w.sys) (hw : w.tx = [])
    (hdata : data.length = sizeofResponse) (hv : Sends false w data v) :
    SendOutcome P root path flags s r v := by
  rw [eq_sent_of_sends hv]
  refine .unopened hdirs ?_
  rw [Proc.sent_tx, hw, List.nil_append, hdata]

/-- The part of a SEND after the existence checks. -/
theorem acceptCases_outcome {P : List UInt8 → Int → Prop} (header : IsrSendCommandHeader)
    {full : List UInt8} {w : World} (present : Bool) (hw : w.tx = [])
    (hno : hasFlag header.flags isrFlagCreateDirectory = false) (hvalid : isrValidatePath path ≠ -1)
    (hfull : resolvedPath w.sys root path isrPathMax = some full)
    (hdata : Takes G (fun fd => receiveFile L fuel fd header.flags header.uncompressedBlockSize
      header.effectiveLength) w.rx P) :
    AcceptCases G false true Anything L fuel header full present
      (SendOutcome P root path header.flags w.sys) w := by
  constructor
  · exact fun _ _ _ _ _ _ => trivial
  · exact fun _ _ => trivial
  · exact fun _ _ _ h => absurd h (by decide)
  · intro s₁ hrun _
    exact .unopened hrun.dirsAdded (by simp [hw, length_acceptance])
  · intro s₁ fd s₂ hrun hopen
    refine (hdata ((w.withSys s₂).sent (acceptance present)) fd rfl).mono ?_
    rintro r v ⟨data, k, hP, rfl⟩ u hu
    rw [eq_sent_of_sends hu]
    refine .received present hno hvalid hfull hP ⟨s₁, fd, s₂, hrun.dirsAdded, hopen, rfl⟩ ?_ rfl
    simp [hw]

/-- **A connection with a SEND.**  What the receiver makes of the bytes after the command is a
parameter, so that this is one statement for whole streams and for others. -/
theorem ensures_serveConnection_send {P : List UInt8 → Int → Prop} (h0 : (0 : UInt8) ∉ path)
    (hlen : path.length < 65536)
    (hdata : Takes G (fun fd => receiveFile L fuel fd flags (blockSize % 256 ^ 4)
      (n % 256 ^ 8)) rest P) :
    Ensures (machine G false true) Anything (serveConnection L fuel root)
      (SendOutcome P root path flags s)
      (Proc.start s (sendCommandBytes path flags blockSize n ++ rest)) := by
  have hhead := head_sendCommandBytes path flags blockSize n rest
  have hheader := sendHeader_sendCommandBytes path flags blockSize n rest
  have hpath : cstr (sendPath (sendCommandBytes path flags blockSize n ++ rest)) = path := by
    rw [sendPath_sendCommandBytes, pathLen, Nat.mod_eq_of_lt hlen, List.take_length,
      cstr_of_notMem h0]
  have hno : ∀ {k r}, SendOutcome P root path flags s r
      ((Proc.start s (sendCommandBytes path flags blockSize n ++ rest)).received k) :=
    fun {_ _} => .unopened (Sys.DirsAdded.refl s) (Nat.zero_le _)
  refine ensures_serveConnection permits_anything (ensures_isrReceiveCommand permits_anything ?_)
  constructor
  · exact fun _ _ _ _ _ _ _ => trivial
  · exact fun _ _ _ _ => hno
  · exact fun _ _ _ _ => hno
  · intro cmd rest' heq hsend
    rw [Proc.start_rx] at heq
    rw [heq] at hhead
    exact absurd (Option.some.inj hhead) hsend
  · intro _ _ _
    rw [Proc.start_rx, hpath, hheader]
    simp only
    generalize hw : (Proc.start s (sendCommandBytes path flags blockSize n ++ rest)).received
      (16 + pathLen path) = w
    have hsys : w.sys = s := by rw [← hw]; rfl
    have htx : w.tx = [] := by rw [← hw]; rfl
    have hrx : w.rx = rest := by
      rw [← hw, Proc.received_rx, Proc.start_rx,
        List.drop_left' (length_sendCommandBytes path flags blockSize n)]
    have hsame : s.DirsAdded w.sys := by
      rw [hsys]
      exact Sys.DirsAdded.refl s
    have hrefused : ∀ {message v}, Sends false w (refusal message) v →
        SendOutcome P root path flags s (-1) v :=
      fun hv => .of_sends hsame htx (length_refusal _) hv
    refine ensures_isrReceiveSendCommand permits_anything (fun _ _ => trivial)
      (fun _ v hv => hrefused hv) (fun _ _ v hv => hrefused hv) fun hvalid full hfull => ?_
    constructor
    · exact fun _ _ _ _ _ _ _ => trivial
    · intro _ ps p s₁ r s₂ v _ hrun hstep hv
      have hdirs : s.DirsAdded s₂ := by
        rw [← hsys]
        exact hrun.dirsAdded.trans hstep.dirsAdded
      exact .of_sends (w := w.withSys s₂) hdirs htx (length_mkdirReply r) hv
    · exact fun _ => trivial
    · exact fun _ _ v _ hv => hrefused hv
    · exact fun _ _ v _ _ hv => hrefused hv
    · intro hno _
      have h := acceptCases_outcome ⟨flags, pathLen path, blockSize % 256 ^ 4, n % 256 ^ 8⟩ false
        htx hno hvalid hfull (by rw [hrx]; exact hdata)
      rwa [hsys] at h
    · intro hno _ _ _
      have h := acceptCases_outcome ⟨flags, pathLen path, blockSize % 256 ^ 4, n % 256 ^ 8⟩ true
        htx hno hvalid hfull (by rw [hrx]; exact hdata)
      rwa [hsys] at h
  · intro hrecv _ _
    rw [Proc.start_rx, hhead] at hrecv
    exact absurd hrecv (by decide)

/-- A client that sends nothing changes nothing. -/
theorem ensures_serveConnection_nil :
    Ensures (machine G false true) Anything (serveConnection L fuel root)
      (fun _ v => v.sys = s) (Proc.start s []) := by
  refine ensures_serveConnection permits_anything (ensures_isrReceiveCommand permits_anything ?_)
  constructor
  · exact fun _ _ _ _ _ _ _ => trivial
  · exact fun _ _ _ _ => rfl
  · exact fun _ _ _ _ => rfl
  · exact fun _ _ h => absurd h (by simp)
  · exact fun h => absurd h (by simp)
  · exact fun h => absurd h (by simp)

/-! ## RECV

The same for a RECV.  The file system does not change, so the cases only say what is sent. -/

/-- How a RECV can go.  `D` says what is sent of a file. -/
inductive RecvOutcome (D : List UInt8 → List UInt8 → Prop) (root path : List UInt8) (s : Sys)
    (v : World) : Prop where
  /-- Nothing has been offered. -/
  | nothing : (v.tx.length < sizeofRecvConfirmation ∨
        ∃ t m, v.tx = confirmation t m ∧ t ≠ isrRecvTypeFile ∧ t ≠ isrRecvTypeDirectory) →
      RecvOutcome D root path s v
  /-- A directory has been offered, and its listing perhaps streamed. -/
  | directory {full data : List UInt8} {k : Loc} (m : Nat) : isrValidatePath path ≠ -1 →
      resolvedPath s root path isrPathMax = some full → s.resolve full = some k →
      s.fs.node k = some .dir → v.tx = confirmation isrRecvTypeDirectory m ++ data →
      (data = [] ∨ ∃ names es, s.OpendirStep full (some names) ∧ Collected s full names es ∧
        m = (listingBytes es).length ∧ data = plainStream (listingBytes es)) →
      RecvOutcome D root path s v
  /-- A file has been offered, and perhaps streamed. -/
  | file {full content data : List UInt8} {k : Loc} : isrValidatePath path ≠ -1 →
      resolvedPath s root path isrPathMax = some full → s.resolve full = some k →
      s.fs.contents k = some content →
      v.tx = confirmation isrRecvTypeFile content.length ++ data →
      (data = [] ∨ D content data) → RecvOutcome D root path s v

/-- A sender sends something of a file that satisfies `D`, as far as `B` bounds its length. -/
def Gives (G : Faults) (B : List UInt8 → Prop) (transmit : Fd → Prog Int)
    (D : List UInt8 → List UInt8 → Prop) : Prop :=
  ∀ (u : World) (fd : Fd) (content : List UInt8), B content → u.sys.script = none →
    u.sys.unread fd = some content → Ensures (machine G false true) Anything (transmit fd)
      (fun _ v => ∃ data, D content data ∧ v.tx = u.tx ++ data) u

/-- A file that can be read is given as a whole. -/
theorem gives_stream {b : Nat} (hFr : G.reads = false) (hFa : G.alloc = false)
    (hblocks : BlocksOk L flags blockSize)
    (hb : hasFlag flags isrFlagUseCompression = true → b = blockSize) :
    Gives G (fun content => content.length < 2 ^ 55) (fun fd => transmitFile L fuel fd flags b)
      (StreamOf L flags blockSize) := by
  intro u fd content hlen hs hu
  have heq : transmitFile L fuel fd flags b = transmitFile L fuel fd flags blockSize := by
    unfold transmitFile
    by_cases hflag : hasFlag flags isrFlagUseCompression = true
    · rw [hb hflag]
    · rw [if_neg hflag, if_neg hflag]
  simp only [heq]
  exact ensures_transmitFile_whole permits_anything hFr hFa hblocks hlen hs hu
    (fun _ _ => trivial) fun stream _ _ _ hstream => ⟨stream, hstream, rfl⟩

/-- A file that is served. -/
theorem serveCases_outcome {B : List UInt8 → Prop} {D : List UInt8 → List UInt8 → Prop}
    {header : IsrRecvCommandHeader} {full : List UInt8} {size : Nat} {w : World}
    (hgives : Gives G B
      (fun fd => transmitFile L fuel fd header.flags header.uncompressedBlockSize) D)
    (hw : w.tx = []) (hs : w.sys.script = none) (hvalid : isrValidatePath path ≠ -1)
    (hfull : resolvedPath w.sys root path isrPathMax = some full)
    (hsize : ∀ k content, w.sys.resolve full = some k → w.sys.fs.contents k = some content →
      B content)
    (hstat : w.sys.StatStep full (some (false, size))) :
    ServeCases G false true Anything L fuel header full size
      (fun _ v => RecvOutcome D root path w.sys v) w := by
  obtain ⟨k, i, hk, hi, hlen⟩ := Sys.statStep_file hstat
  rw [Sys.sizeOf, hs] at hlen
  simp only at hlen
  subst hlen
  have hcontents := FS.contents_of_file hi
  have hoffer : ∀ {v : World}, v.tx = confirmation isrRecvTypeFile (w.sys.fs.data i).length →
      RecvOutcome D root path w.sys v :=
    fun hv => .file hvalid hfull hk hcontents (hv.trans (List.append_nil _).symm) (Or.inl rfl)
  constructor
  · exact fun _ h => absurd h (by decide)
  · exact trivial
  · exact fun _ => hoffer (by simp [hw])
  · exact fun _ _ => hoffer (by simp [hw])
  · exact fun _ _ _ _ => trivial
  · exact fun _ _ _ _ _ => hoffer (by simp [hw])
  · intro go rest' fd s' _ _ hopen
    refine (hgives _ fd _ (hsize k _ hk hcontents) ((Sys.script_of_openRead hopen).trans hs)
      (Sys.unread_of_openRead hk hi hopen)).mono fun _ v hv => ?_
    obtain ⟨data, hdata, htx⟩ := hv
    refine .file hvalid hfull hk hcontents ?_ (Or.inr hdata)
    rw [htx]
    simp [hw]

/-- **A connection with a RECV.**  No file is changed; what is sent of a file is again a
parameter. -/
theorem ensures_serveConnection_recv {B : List UInt8 → Prop} {D : List UInt8 → List UInt8 → Prop}
    (hgives : Gives G B (fun fd => transmitFile L fuel fd flags (blockSize % 256 ^ 4)) D)
    (h0 : (0 : UInt8) ∉ path) (hlen : path.length < 65536) (hs : s.script = none)
    (hsize : ∀ full k content, isrValidatePath path ≠ -1 →
      resolvedPath s root path isrPathMax = some full → s.resolve full = some k →
      s.fs.contents k = some content → B content) :
    Ensures (machine G false true) Anything (serveConnection L fuel root)
      (fun _ v => v.sys.fs = s.fs ∧ RecvOutcome D root path s v)
      (Proc.start s (recvCommandBytes path flags blockSize ++ rest)) := by
  have hhead := head_recvCommandBytes path flags blockSize rest
  have hheader := recvHeader_recvCommandBytes path flags blockSize rest
  have hpath : cstr (recvPath (recvCommandBytes path flags blockSize ++ rest)) = path := by
    rw [recvPath_recvCommandBytes, pathLen, Nat.mod_eq_of_lt hlen, List.take_length,
      cstr_of_notMem h0]
  have hno : ∀ {k}, s.fs = s.fs ∧ RecvOutcome D root path s
      ((Proc.start s (recvCommandBytes path flags blockSize ++ rest)).received k) :=
    fun {_} => ⟨rfl, .nothing (Or.inl (by simp [sizeofRecvConfirmation]))⟩
  refine ensures_serveConnection permits_anything (ensures_isrReceiveCommand permits_anything ?_)
  constructor
  · exact fun _ _ _ _ _ _ _ => trivial
  · exact fun _ _ _ _ => hno
  · exact fun _ _ _ _ => hno
  · intro cmd rest' heq _ hrecv
    rw [Proc.start_rx] at heq
    rw [heq] at hhead
    exact absurd (Option.some.inj hhead) hrecv
  · intro hsend _ _
    rw [Proc.start_rx, hhead] at hsend
    exact absurd hsend (by decide)
  · intro _ _ _
    rw [Proc.start_rx, hpath, hheader]
    simp only
    generalize hw : (Proc.start s (recvCommandBytes path flags blockSize ++ rest)).received
      (8 + pathLen path) = w
    have hsys : w.sys = s := by rw [← hw]; rfl
    have htx : w.tx = [] := by rw [← hw]; rfl
    subst hsys
    suffices h : Ensures (machine G false true) Anything (isrReceiveRecvCommand L fuel root
        ⟨flags, pathLen path, blockSize % 256 ^ 4⟩ path)
        (fun _ v => RecvOutcome D root path w.sys v) w from
      (recv_fs.and h).weaken (fun _ _ _ _ => trivial) (fun _ _ h => h)
    have hnone : ∀ {t m v}, t ≠ isrRecvTypeFile → t ≠ isrRecvTypeDirectory →
        Sends false w (confirmation t m) v → RecvOutcome D root path w.sys v := by
      intro t m v hf hd hv
      rw [eq_sent_of_sends hv]
      exact .nothing (Or.inr ⟨t, m, by simp [htx], hf, hd⟩)
    refine ensures_isrReceiveRecvCommand permits_anything (fun _ _ => trivial)
      (fun _ v hv => hnone (by decide) (by decide) hv) (fun _ _ _ => trivial)
      (fun _ _ _ _ v hv => hnone (by decide) (by decide) hv)
      (fun hvalid full size hfull hstat => ?_) (fun hvalid full size hfull hstat => ?_)
    · obtain ⟨k, hk, hdir⟩ := Sys.statStep_dir hstat
      have hoffer : ∀ (m : Nat) {v : World}, v.tx = confirmation isrRecvTypeDirectory m →
          RecvOutcome D root path w.sys v := fun m _ hv =>
        .directory m hvalid hfull hk hdir (hv.trans (List.append_nil _).symm) (Or.inl rfl)
      refine ensures_isrTransmitRecvDirectoryListing permits_anything ?_
      constructor
      · exact trivial
      · exact fun _ => trivial
      · exact fun _ => .nothing (Or.inl (by simp [htx, sizeofRecvConfirmation]))
      · exact fun _ _ h => absurd h (by decide)
      · exact fun _ => trivial
      · exact fun m _ => hoffer m (by simp [htx])
      · exact fun m _ _ => hoffer m (by simp [htx])
      · intro names es _ _ hnames hes _ _
        refine .directory _ hvalid hfull hk hdir ?_ (Or.inr ⟨names, es, hnames, hes, rfl, rfl⟩)
        simp [htx]
      · exact fun _ _ _ _ h => absurd h (by decide)
    · exact serveCases_outcome hgives htx hs hvalid hfull
        (fun k content => hsize full k content hvalid hfull) hstat

end IsrTransfer
