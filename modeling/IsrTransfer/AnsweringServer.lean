import IsrTransfer.CommandRules
import IsrTransfer.DownloadParts

/-!
# A server that is a function

Here the server is a function: it is asked for a path and answers with the bytes that it has for
it.  In `machine` a connection brings its bytes when it is made, before the client has asked for
anything.  A run against the server `S` is therefore one in which these bytes turn out to be the
right ones as soon as the command has been sent (`Answers`), and `answering S` is `machine`
restricted to such states.

A restricted environment can get stuck, so that there are runs has to be shown.  It is a matter of
one connection: a client that has connected goes on to the end without another connection
(`Proceeds`), and then all its states are states of a run against `S` if the last one is
(`exists_answering`).  The operations of the client are cut where they connect.

A client that takes a whole directory makes connection after connection.  The lemmas here are
about one of them: that the request is made, that its answer is read as what `S` has for it
(`exists_recvConnect`), and that a download of a file then comes to its end
(`exists_run_isrCliDownloadFile`) without using up its fuel.
-/

namespace IsrTransfer

open Effect Posix

variable {S : List UInt8 → List UInt8} {F : Faults} {lossy eof : Bool}
variable {A : Guard (NetOp OsOp) World} {w : World}

/-! ## The server -/

/-- The path that is asked for: as much of a path as its length says, which is sent in two
bytes. -/
def requested (path : List UInt8) : List UInt8 := path.take (pathLen path)

/-- The server answers a request for a path with what `S` has for it. -/
def Answers (S : List UInt8 → List UInt8) (w : World) : Prop :=
  ∀ path flags blockSize, recvCommandBytes path flags blockSize <+: w.tx →
    w.input = S (requested path)

/-- Everything is as in `machine`, and the server is `S`. -/
abbrev answering (S : List UInt8 → List UInt8) (F : Faults) (lossy eof : Bool) :
    Env (NetOp OsOp) World :=
  Env.restrict (machine F lossy eof) (Answers S)

/-- A path has been asked for, and the server answers. -/
def Requests (S : List UInt8 → List UInt8) (path : List UInt8) (flags : UInt8)
    (blockSize : Nat) (w : World) : Prop :=
  recvCommandBytes path flags blockSize <+: w.tx ∧ w.input = S (requested path)

/-- A command says what is asked for. -/
theorem requested_eq_recvPath {path tx : List UInt8} {flags : UInt8} {blockSize : Nat}
    (h : recvCommandBytes path flags blockSize <+: tx) : requested path = recvPath tx := by
  obtain ⟨rest, rfl⟩ := h
  exact (recvPath_recvCommandBytes path flags blockSize rest).symm

theorem Requests.answers {path : List UInt8} {flags : UInt8} {blockSize : Nat}
    (h : Requests S path flags blockSize w) : Answers S w := by
  intro path' flags' blockSize' htx
  rw [h.2, requested_eq_recvPath htx, ← requested_eq_recvPath h.1]

/-- Nothing has been asked for on a new connection. -/
theorem answers_start (s : Sys) (input : List UInt8) : Answers S (Proc.start s input) := by
  intro path flags blockSize htx
  have hlen := htx.length_le
  rw [length_recvCommandBytes, Proc.start_tx, List.length_nil] at hlen
  omega

/-! ## Runs on one connection

What is shown here of a client is shown in `machine`, for all inputs, and then carried over: the
input of the connection is what `S` has for the request, so that the run is one against `S`.
The guards that are used for this leave a connected client alone (`Tolerates`). -/

/-- What has been sent has been sent. -/
theorem tx_of_step {ρ : Type} {op : NetOp OsOp ρ} {r : ρ} {v : World}
    (hr : machine F lossy eof w op r v) (hop : ¬ Connects op) : w.tx <+: v.tx := by
  cases op with
  | recv room len => rcases hr with ⟨k, -, -, -, -, rfl⟩ | ⟨-, -, rfl⟩ <;> exact List.prefix_rfl
  | connect => exact absurd trivial hop
  | send data =>
    rcases hr with ⟨k, -, -, -, rfl⟩ | ⟨-, -, rfl⟩
    · exact List.prefix_append _ _
    · exact List.prefix_rfl
  | close =>
    obtain rfl := hr
    exact List.prefix_rfl
  | sys op =>
    obtain ⟨s', -, rfl⟩ := hr
    exact List.prefix_rfl

/-- The client goes on on the connection that it has. -/
def Proceeds : Guard (NetOp OsOp) World := fun _ w op =>
  ¬ Connects op ∧ Answered (machine Faults.none false true) w op

/-- The client has not used up its fuel. -/
def NotSpin : Guard (NetOp OsOp) World := fun _ _ op =>
  match op with
  | .sys .spin => False
  | _ => True

/-- A guard that leaves a client alone that is connected, as long as it has fuel. -/
structure Tolerates (A : Guard (NetOp OsOp) World) : Prop extends Permits A where
  recv : ∀ w room len, 0 < len → A w (.recv room len)
  mkdir : ∀ w path, A w (.sys (.mkdir path))
  openWrite : ∀ w path, A w (.sys (.openWrite path))

theorem Tolerates.mkdirs (hA : Tolerates A) {path : List UInt8} :
    Ensures (machine F lossy eof) A (isrMkdirRecursive path) (fun _ _ => True) w :=
  ensures_isrMkdirRecursive' (fun _ p _ _ _ _ => hA.mkdir _ p) fun _ _ _ => trivial

theorem tolerates_proceeds : Tolerates Proceeds where
  send _ _ h := ⟨not_false, answered_send h⟩
  close w := ⟨not_false, (), w, rfl⟩
  read _ fd len := ⟨not_false, answered_read fd len⟩
  write _ fd _ h := ⟨not_false, answered_write fd h⟩
  closeFd _ fd := ⟨not_false, answered_close fd⟩
  malloc _ n := ⟨not_false, answered_malloc n⟩
  print _ _ := ⟨not_false, answered_sys ⟨(), _, rfl⟩⟩
  eprint _ _ := ⟨not_false, answered_sys ⟨(), _, rfl⟩⟩
  recv _ _ _ h := ⟨not_false, answered_recv h (Or.inr rfl)⟩
  mkdir _ path := ⟨not_false, answered_mkdir path⟩
  openWrite _ path := ⟨not_false, answered_openWrite path⟩

theorem tolerates_notSpin : Tolerates NotSpin where
  send _ _ _ := trivial
  close _ := trivial
  read _ _ _ := trivial
  write _ _ _ _ := trivial
  closeFd _ _ := trivial
  malloc _ _ := trivial
  print _ _ := trivial
  eprint _ _ := trivial
  recv _ _ _ _ := trivial
  mkdir _ _ := trivial
  openWrite _ _ := trivial

/-- A client that proceeds has a run to a result.  It is a run against `S` if `S` answers in
all states in which no more has been sent than at the end. -/
theorem exists_answering {α : Type} {p : Prog α} {Q : α → World → Prop} {w : World}
    (h : Ensures (machine Faults.none false true) Proceeds p Q w)
    (hans : ∀ u a v, Q a v → u.input = w.input → w.tx <+: u.tx → u.tx <+: v.tx → Answers S u) :
    ∃ a v, Reaches (answering S Faults.none false true) p w (.ret a) v ∧ Q a v ∧
      v.input = w.input ∧ w.tx <+: v.tx := by
  induction p generalizing w with
  | ret a => exact ⟨a, w, .refl _ _, h, rfl, List.prefix_rfl⟩
  | call op k ih =>
    obtain ⟨⟨hop, r, v, hr⟩, hk⟩ := h
    have hin := input_of_step hr hop
    have htx := tx_of_step hr hop
    obtain ⟨a, u, hrun, hQ, hin', htx'⟩ := ih r (hk r v hr)
      fun u a u' hQ hu hvu huu => hans u a u' hQ (hu.trans hin) (htx.trans hvu) huu
    exact ⟨a, u, .step ⟨hr, hans v a u hQ hin htx htx'⟩ hrun, hQ, hin'.trans hin,
      htx.trans htx'⟩

section Request

variable {path : List UInt8} {flags : UInt8} {blockSize : Nat}

theorem Requests.mono {u : World} (h : Requests S path flags blockSize w)
    (hin : u.input = w.input) (htx : w.tx <+: u.tx) : Requests S path flags blockSize u :=
  ⟨h.1.trans htx, hin.trans h.2⟩

/-- After the request there is nothing more to show. -/
theorem Requests.exists_run {α : Type} {p : Prog α} {Q : α → World → Prop}
    (hw : Requests S path flags blockSize w)
    (h : Ensures (machine Faults.none false true) Proceeds p Q w) :
    ∃ a v, Reaches (answering S Faults.none false true) p w (.ret a) v ∧ Q a v ∧
      Requests S path flags blockSize v := by
  obtain ⟨a, v, hrun, hQ, hin, htx⟩ := exists_answering h
    fun u _ _ _ hu hwu _ => (hw.mono hu hwu).answers
  exact ⟨a, v, hrun, hQ, hw.mono hin htx⟩

/-- The end of `recv_connect`, which reads the confirmation. -/
def readConfirmation : Prog (Option IsrRecvConfirmation) := do
  match ← netRecvExact sizeofRecvConfirmation sizeofRecvConfirmation with
  | none =>
    complain "Failed to read server response\n" []
    netClose
    return none
  | some buf => return some (IsrRecvConfirmation.ofBytes buf)

/-- The client connects, asks for `path`, and reads the confirmation, if one comes. -/
theorem exists_recvConnect (path : List UInt8) (flags : UInt8) (blockSize : Nat) (w : World) :
    ∃ conf v, Reaches (answering S Faults.none false true) (recvConnect path flags blockSize) w
        (.ret conf) v ∧
      Requests S path flags blockSize v ∧
      (sizeofRecvConfirmation ≤ (S (requested path)).length → conf ≠ none) ∧
      ∀ c, conf = some c → c = confirmationOf (S (requested path)) ∧
        v = confirmedWorld w.sys (S (requested path)) (recvCommandBytes path flags blockSize) := by
  have hP := tolerates_proceeds.toPermits
  have hcommand : Ensures (machine Faults.none false true) Proceeds
      (isrTransmitRecvCommand path flags blockSize)
      (fun r v => r = 0 ∧ v = asked w.sys (S (requested path))
        (recvCommandBytes path flags blockSize)) (Proc.start w.sys (S (requested path))) :=
    ensures_isrTransmitRecvCommand hP ⟨rfl, rfl⟩ fun hl => absurd hl (by decide)
  have hconfirm : Ensures (machine Faults.none false true) Proceeds readConfirmation
      (fun conf v => (sizeofRecvConfirmation ≤ (S (requested path)).length → conf ≠ none) ∧
        ∀ c, conf = some c → c = confirmationOf (S (requested path)) ∧
          v = confirmedWorld w.sys (S (requested path)) (recvCommandBytes path flags blockSize))
      (asked w.sys (S (requested path)) (recvCommandBytes path flags blockSize)) := by
    unfold readConfirmation
    rw [ensures_bind]
    refine ensures_netRecvExact (fun k hk _ => tolerates_proceeds.recv _ _ _ (by omega))
      (fun _ => ⟨fun _ => by simp, fun c hc => ⟨(Option.some.inj hc).symm, rfl⟩⟩)
      fun k hk _ hl => ?_
    refine ensures_complainClose hP (by decide) fun _ _ => ⟨fun hlen => ?_, fun c hc => ?_⟩
    · obtain rfl : k = (S (requested path)).length := by simpa using hl
      omega
    · exact absurd hc (by simp)
  -- the command is a request for `path` and for nothing else
  obtain ⟨_, _, hsent, ⟨rfl, rfl⟩, -, -⟩ := exists_answering (S := S) hcommand (by
    rintro u _ _ ⟨-, rfl⟩ hin - htx path' flags' blockSize' htx'
    rw [hin, Proc.start_input, requested_eq_recvPath (htx'.trans htx)]
    exact congrArg S (requested_eq_recvPath List.prefix_rfl))
  have hasked : Requests S path flags blockSize (asked w.sys (S (requested path))
      (recvCommandBytes path flags blockSize)) := ⟨List.prefix_rfl, rfl⟩
  obtain ⟨conf, v, hread, ⟨hlong, hv⟩, hrequests⟩ := hasked.exists_run hconfirm
  refine ⟨conf, v, ?_, hrequests, hlong, hv⟩
  unfold recvConnect
  refine .step (r := true) ⟨Or.inl ⟨rfl, S (requested path), rfl⟩, answers_start _ _⟩
    ((hsent.bind _).trans ?_)
  rw [Program.ret_bind, if_neg (by decide)]
  exact hread

end Request

/-! ## The download of a file -/

section File

variable {L : Lz4} {fuel : Nat} {flags : UInt8} {blockSize n : Nat}
  {remotePath localPath : List UInt8}

/-- The part of `isr_cli_download_file` that follows the confirmation. -/
def afterFileConfirmation (L : Lz4) (fuel : Nat) (remotePath localPath : List UInt8)
    (flags : UInt8) (blockSize : Nat) (conf : IsrRecvConfirmation) : Prog Int := do
  if conf.responseType = isrRecvTypeNotFound then
    complain "  File not found: %s\n" [.str remotePath]
    netClose
    return -1
  else if conf.responseType ≠ isrRecvTypeFile then
    complain "  Expected file but got type 0x%02x for %s\n"
      [.num conf.responseType.toNat, .str remotePath]
    netClose
    return -1
  else
    if (← sendGo) = -1 then
      netClose
      return -1
    downloadInto L fuel flags blockSize conf.effectiveLength localPath

theorem isrCliDownloadFile_eq : isrCliDownloadFile L fuel remotePath localPath flags blockSize =
    recvConnect remotePath flags blockSize >>= fun conf => conf.elim (pure (-1))
      (afterFileConfirmation L fuel remotePath localPath flags blockSize) := by
  unfold isrCliDownloadFile
  congr 1
  funext conf
  cases conf <;> rfl

theorem ensures_downloadInto (hA : Tolerates A)
    (hspin : fuel ≤ w.rx.length → ∀ v, A v (.sys .spin)) :
    Ensures (machine F lossy eof) A (downloadInto L fuel flags blockSize n localPath)
      (fun _ _ => True) w := by
  have hP := hA.toPermits
  have hinto : ∀ s, Ensures (machine F lossy eof) A (receiveInto L fuel flags blockSize n localPath
      "  Failed to receive file.\n" "  Checksum mismatch!\n") (fun _ _ => True) (w.withSys s) := by
    intro s
    refine ensures_receiveInto hP _ _ (by decide) (by decide) ⟨hA.openWrite _ _,
      fun _ _ _ => trivial, fun fd s' _ => ?_⟩
    exact ensures_receiveFile_outline hP (fun _ _ _ _ hlen _ => hA.recv _ _ _ hlen) hspin
      fun _ _ _ => ⟨fun _ _ _ => trivial, fun _ => trivial⟩
  cases hparent : isrParentDir localPath isrPathMax with
  | none =>
    rw [downloadInto_of_none hparent]
    exact hinto w.sys
  | some parent =>
    rw [downloadInto_of_some hparent, ensures_bind]
    exact ensures_isrMkdirRecursive' (fun _ p _ _ _ _ => hA.mkdir _ p) fun _ s _ => hinto s

/-- After the confirmation a client with enough fuel comes to the end. -/
theorem ensures_afterFileConfirmation (hA : Tolerates A) (conf : IsrRecvConfirmation)
    (hspin : fuel ≤ w.rx.length → ∀ v, A v (.sys .spin)) :
    Ensures (machine F lossy eof) A
      (afterFileConfirmation L fuel remotePath localPath flags blockSize conf)
      (fun _ _ => True) w := by
  have hP := hA.toPermits
  unfold afterFileConfirmation
  split
  · exact ensures_complainClose hP (by decide) fun _ _ => trivial
  split
  · exact ensures_complainClose hP (by decide) fun _ _ => trivial
  rw [ensures_bind]
  refine ensures_sendGo hP ?_ fun _ v _ => ?_
  · rw [if_neg (by decide)]
    exact ensures_downloadInto hA hspin
  · rw [if_pos rfl, ensures_bind, ensures_netClose]
    exact ⟨hP.close _, trivial⟩

theorem rx_le_of_requests {s : Sys} {input : List UInt8} (h : input.length < fuel) :
    ¬ fuel ≤ (confirmedWorld s input (recvCommandBytes remotePath flags blockSize)).rx.length := by
  rw [confirmedWorld, Proc.received_rx, asked_rx, List.length_drop]
  omega

/-- There is a run of the download to its end. -/
theorem exists_run_isrCliDownloadFile (hfuel : (S (requested remotePath)).length < fuel)
    (w : World) :
    ∃ r v, Reaches (answering S Faults.none false true)
      (isrCliDownloadFile L fuel remotePath localPath flags blockSize) w (.ret r) v := by
  rw [isrCliDownloadFile_eq]
  obtain ⟨conf, v, hconnect, hv, -, hconf⟩ := @exists_recvConnect S remotePath flags blockSize w
  cases conf with
  | none => exact ⟨-1, v, hconnect.bind _⟩
  | some c =>
    obtain ⟨rfl, rfl⟩ := hconf c rfl
    obtain ⟨r, u, hrest, -, -⟩ := hv.exists_run (ensures_afterFileConfirmation tolerates_proceeds _
      fun hle => absurd hle (rx_le_of_requests hfuel))
    exact ⟨r, u, (hconnect.bind _).trans hrest⟩

/-- And no run uses up its fuel. -/
theorem ensures_isrCliDownloadFile_notSpin (hfuel : (S (requested remotePath)).length < fuel)
    (hw : Answers S w) :
    Ensures (answering S F lossy eof) NotSpin
      (isrCliDownloadFile L fuel remotePath localPath flags blockSize)
      (fun _ v => Answers S v) w := by
  rw [isrCliDownloadFile_eq, ensures_bind]
  refine Ensures.restrict (ensures_recvConnect tolerates_notSpin.toPermits
    ⟨trivial, fun _ _ _ hv => hv, fun _ _ _ _ _ hv => hv, fun _ _ _ _ => trivial,
      fun _ _ _ _ _ _ _ hv => hv, fun input _ hv => ?_⟩) hw
  have hinput : input = S (requested remotePath) := hv _ _ _ List.prefix_rfl
  refine Ensures.restrict ((ensures_afterFileConfirmation tolerates_notSpin _ fun hle => ?_).mono
    fun _ _ _ h => h) hv
  exact absurd hle (rx_le_of_requests (hinput ▸ hfuel))

end File

end IsrTransfer
