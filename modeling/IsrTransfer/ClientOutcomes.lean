import IsrTransfer.ClientRules
import IsrTransfer.ServerOutcomes

/-!
# What an operation of the client has done in the end

The counterpart for the client.  An upload has asked for nothing, or for a file to be
accepted, or it has streamed the file too, and then the second reply decides
(`UploadOutcome`).  A download has received a file or a listing, or it has failed
(`DownloadOutcome`); what it makes of the data depends on what the server has sent, which is
left open here.

The outcomes say what has been sent, as bytes, and which beginning of what came in has been looked
at.  Nothing is assumed of what comes in.  To know what a session has done, the bytes that a
client has sent in an outcome are given to the server, and the bytes of the server to the client;
`FileStore` does this.
-/

namespace IsrTransfer

open Effect Posix

variable {F : Faults} {L : Lz4} {fuel : Nat} {flags : UInt8} {blockSize : Nat} {s : Sys}
variable {remotePath localFile localPath localDir : List UInt8}

theorem Complains.tx {w v : World} (h : Complains w v) : v.tx = w.tx := by
  obtain ⟨lines, -, rfl⟩ := h
  rfl

theorem Complains.input {w v : World} (h : Complains w v) : v.input = w.input := by
  obtain ⟨lines, -, rfl⟩ := h
  rfl

/-! ## Uploads -/

/-- How `isr_cli_send_file` can go. -/
inductive UploadOutcome (L : Lz4) (remotePath localFile : List UInt8) (flags : UInt8)
    (blockSize : Nat) (s : Sys) (r : Int) (v : World) : Prop where
  /-- The file cannot be read. -/
  | nothing : r ≠ 0 → v.tx = [] → UploadOutcome L remotePath localFile flags blockSize s r v
  /-- There is no reply, or it refuses the file. -/
  | refused {content : List UInt8} : r ≠ 0 → s.bytesAt localFile = some content →
      v.tx = sendCommandBytes remotePath flags blockSize content.length →
      (v.input.length < sizeofResponse ∨ v.input.headD 0 = isrResultOtherFailure) →
      UploadOutcome L remotePath localFile flags blockSize s r v
  /-- The file has been streamed. -/
  | streamed {content stream : List UInt8} : s.bytesAt localFile = some content →
      StreamOf L flags blockSize content stream →
      v.tx = sendCommandBytes remotePath flags blockSize content.length ++ stream →
      (r = 0 ↔ 2 * sizeofResponse ≤ v.input.length ∧
        (v.input.drop sizeofResponse).headD 0 = isrResultOk) →
      UploadOutcome L remotePath localFile flags blockSize s r v

/-- What the file that is uploaded has to be: there is a file, no directory, if anything. -/
structure Uploadable (s : Sys) (localFile : List UInt8) : Prop where
  file : ∀ k, s.resolve localFile = some k → s.fs.node k ≠ some .dir
  short : ∀ content, s.bytesAt localFile = some content → content.length < 2 ^ 55

theorem resultCases_outcome {content stream input : List UInt8} {w : World}
    (hbytes : s.bytesAt localFile = some content)
    (hstream : StreamOf L flags blockSize content stream)
    (htx : w.tx = sendCommandBytes remotePath flags blockSize content.length ++ stream)
    (hin : w.input = input) (hrx : w.rx = input.drop sizeofResponse)
    (hlen : sizeofResponse ≤ input.length) :
    ResultCases false true Anything
      (UploadOutcome L remotePath localFile flags blockSize s) w := by
  have hall : w.rx.length + sizeofResponse = input.length := by
    rw [hrx, List.length_drop]
    omega
  have hout : ∀ {r : Int} {v : World}, v.tx = w.tx → v.input = w.input →
      (r = 0 ↔ sizeofResponse ≤ w.rx.length ∧ w.rx.headD 0 = isrResultOk) →
      UploadOutcome L remotePath localFile flags blockSize s r v := by
    intro r v hvtx hvin hr
    refine .streamed hbytes hstream (hvtx.trans htx) ?_
    rw [hvin, hin, ← hrx, hr]
    refine and_congr_left fun _ => ?_
    omega
  constructor
  · exact fun _ _ _ => trivial
  · rintro j v hj - (h | ⟨-, h⟩) hv
    · exact absurd h (by decide)
    · refine hout hv.tx hv.input (iff_of_false (by decide) fun hr => ?_)
      omega
  · exact fun hlen' hok => hout rfl rfl (iff_of_true rfl ⟨hlen', hok⟩)
  · exact fun _ hbad v hv => hout hv.tx hv.input (iff_of_false (by decide) fun hr => hbad hr.2)

theorem ensures_isrCliSendFile_outcome (hFr : F.reads = false) (hFa : F.alloc = false)
    (hblocks : BlocksOk L flags blockSize) (hs : s.script = none)
    (hlocal : Uploadable s localFile) :
    Ensures (machine F false true) Anything
      (isrCliSendFile L fuel remotePath localFile flags blockSize)
      (UploadOutcome L remotePath localFile flags blockSize s) (Proc.start s []) := by
  have hnone : ∀ {w v : World}, w.tx = [] → Complains w v →
      UploadOutcome L remotePath localFile flags blockSize s (-1) v :=
    fun hw hv => .nothing (by decide) (by rw [hv.tx, hw])
  refine ensures_isrCliSendFile permits_anything ?_
  constructor
  · exact trivial
  · exact fun _ v hv => hnone rfl hv
  · exact trivial
  · exact fun _ v hv => hnone rfl hv
  · exact fun _ => trivial
  · exact fun h => absurd h (by decide)
  · intro isDir size fd s' input hstat hopen
    rw [Proc.start_sys] at hopen
    cases isDir with
    | true =>
      obtain ⟨k, hk, hdir⟩ := Sys.statStep_dir hstat
      exact absurd hdir (hlocal.file k hk)
    | false =>
      obtain ⟨k, i, hk, hi, hlen⟩ := Sys.statStep_file hstat
      rw [Proc.start_sys] at hk hi hlen
      rw [Sys.sizeOf, hs] at hlen
      simp only at hlen
      subst hlen
      have hbytes : s.bytesAt localFile = some (s.fs.data i) := by
        rw [Sys.bytesAt_of_resolve hk, FS.contents_of_file hi]
      constructor
      · exact fun h => absurd h (by decide)
      · exact fun _ _ _ => trivial
      · rintro j v hj - (h | ⟨-, h⟩) hv
        · exact absurd h (by decide)
        · refine .refused (by decide) hbytes (by rw [hv.tx]; rfl) (Or.inl ?_)
          rw [hv.input, Proc.received_input, asked_input]
          omega
      · intro _ hrej v hv
        refine .refused (by decide) hbytes (by rw [hv.tx]; rfl) (Or.inr ?_)
        rw [hv.input]
        exact hrej
      · intro hlen _
        refine ensures_transmitFile_whole permits_anything hFr hFa hblocks
          (hlocal.short _ hbytes) ((Sys.script_of_openRead hopen).trans hs)
          (Sys.unread_of_openRead hk hi hopen) (fun _ _ => trivial) ?_
        intro stream s'' _ _ hstream
        refine ⟨fun h => absurd h (by omega), fun _ => ?_⟩
        exact resultCases_outcome hbytes hstream rfl rfl rfl hlen

/-- `isr_cli_send_mkdir` sends its command, and nothing else. -/
theorem ensures_isrCliSendMkdir_outcome :
    Ensures (machine F false true) Anything (isrCliSendMkdir remotePath)
      (fun _ v => v.tx = sendCommandBytes remotePath isrFlagCreateDirectory 0 0)
      (Proc.start s []) := by
  refine ensures_isrCliSendMkdir permits_anything ?_
  constructor
  · exact trivial
  · exact fun h => absurd h (by decide)
  · exact fun h => absurd h (by decide)
  · exact fun _ _ _ _ => trivial
  · exact fun _ _ v _ _ _ hv => hv.tx
  · exact fun _ _ _ => rfl
  · exact fun _ v _ _ hv => hv.tx

/-! ## Downloads -/

/-- How `isr_cli_recv` and `isr_cli_download_file` can go; `outPath` is where they put a file,
`lists` says whether they take listings, and `P` what is made of the data of a file. -/
inductive DownloadOutcome (lists : Prop) (P : List UInt8 → Int → Prop)
    (command outPath : List UInt8) (s : Sys) (r : Int) (v : World) : Prop where
  | failed : r ≠ 0 → (v.tx = command ∨ v.tx = command ++ [isrRecvGo]) →
      DownloadOutcome lists P command outPath s r v
  /-- A listing has been received. -/
  | listed : lists → v.tx = command ++ [isrRecvGo] → sizeofRecvConfirmation ≤ v.input.length →
      (confirmationOf v.input).responseType = isrRecvTypeDirectory → v.sys.fs = s.fs →
      DownloadOutcome lists P command outPath s r v
  /-- A file has been received. -/
  | received {data : List UInt8} {result : Int} : v.tx = command ++ [isrRecvGo] →
      sizeofRecvConfirmation ≤ v.input.length →
      (confirmationOf v.input).responseType = isrRecvTypeFile → P data result →
      ¬ Failed result → Written s outPath data v.sys →
      DownloadOutcome lists P command outPath s r v

section Download

variable {lists : Prop} {P : List UInt8 → Int → Prop} {command outPath down : List UInt8}

/-- What is made of the file that the server sends, if it sends `down`. -/
theorem intoCases_outcome {input : List UInt8} {s₁ : Sys}
    (hinput : sizeofRecvConfirmation ≤ input.length)
    (htype : (confirmationOf input).responseType = isrRecvTypeFile)
    (hdata : Takes F (fun fd => receiveFile L fuel fd flags blockSize
      (confirmationOf down).effectiveLength) (down.drop sizeofRecvConfirmation) P)
    (hdirs : s.DirsAdded s₁) :
    IntoCases F false true Anything L fuel flags blockSize (confirmationOf input).effectiveLength
      outPath (fun r v => v.input = down → DownloadOutcome lists P command outPath s r v)
      ((confirmedWorld s₁ input command).sent [isrRecvGo]) := by
  have hfail : ∀ {w v : World}, w.tx = command ++ [isrRecvGo] → Complains w v →
      v.input = down → DownloadOutcome lists P command outPath s (-1) v :=
    fun hw hv _ => .failed (by decide) (Or.inr (by rw [hv.tx, hw]))
  constructor
  · exact trivial
  · exact fun _ v hv => hfail rfl hv
  · intro fd s₂ hopen
    by_cases hdown : input = down
    · subst hdown
      refine (hdata _ fd rfl).mono ?_
      rintro r v ⟨data, k, hP, rfl⟩
      refine ⟨fun _ u hu => hfail rfl hu, fun hok _ => ?_⟩
      exact .received rfl hinput htype hP (fun h => hok h.taken) ⟨s₁, fd, s₂, hdirs, hopen, rfl⟩
    · refine ensures_receiveFile_outline permits_anything (fun _ _ _ _ _ _ => trivial)
        (fun _ _ => trivial) fun r data k => ?_
      exact ⟨fun _ u hu => hfail rfl hu, fun _ hin => absurd hin hdown⟩

theorem connectCases_outcome :
    ConnectCases F false true Anything command (fun conf v => conf = none → v.input = down →
      DownloadOutcome lists P command outPath s (-1) v) (Proc.start s []) := by
  constructor
  · exact trivial
  · exact fun h => absurd h (by decide)
  · exact fun h => absurd h (by decide)
  · exact fun _ _ _ _ => trivial
  · intro input k v _ _ _ hv _ _
    exact .failed (by decide) (Or.inl (by rw [hv.tx, Proc.received_tx, asked_tx]))
  · exact fun _ _ h => absurd h (by simp)

theorem ensures_isrCliDownloadFile_outcome
    (hdata : Takes F (fun fd => receiveFile L fuel fd flags blockSize
      (confirmationOf down).effectiveLength) (down.drop sizeofRecvConfirmation) P) :
    Ensures (machine F false true) Anything
      (isrCliDownloadFile L fuel remotePath localPath flags blockSize)
      (fun r v => v.input = down →
        DownloadOutcome False P (recvCommandBytes remotePath flags blockSize) localPath s r v)
      (Proc.start s []) := by
  refine ensures_isrCliDownloadFile permits_anything ?_
  constructor
  · exact connectCases_outcome
  · exact fun _ v _ _ hv _ => .failed (by decide) (Or.inl (by rw [hv.tx]; rfl))
  · exact fun h => absurd h (by decide)
  · exact fun _ _ _ _ _ _ _ _ _ => trivial
  · exact fun _ hinput htype s₁ hrun => intoCases_outcome hinput htype hdata hrun.dirsAdded

theorem ensures_isrCliRecv_outcome
    (hdata : Takes F (fun fd => receiveFile L fuel fd flags blockSize
      (confirmationOf down).effectiveLength) (down.drop sizeofRecvConfirmation) P) :
    Ensures (machine F false true) Anything
      (isrCliRecv L fuel remotePath localDir flags blockSize)
      (fun r v => v.input = down →
        DownloadOutcome True P (recvCommandBytes remotePath flags blockSize)
          (snprintfPath localDir (basename remotePath) isrPathMax) s r v)
      (Proc.start s []) := by
  refine ensures_isrCliRecv permits_anything ?_
  constructor
  · exact connectCases_outcome
  · exact fun _ v _ _ _ hv _ => .failed (by decide) (Or.inl (by rw [hv.tx]; rfl))
  · exact fun h => absurd h (by decide)
  · intro input hinput htype
    refine ensures_isrReceiveDirectoryListing permits_anything (fun _ _ _ _ _ _ _ => trivial)
      (fun _ _ v hv => ?_) (fun _ _ => ?_) (fun _ _ _ _ => ?_)
    · obtain ⟨lines, rfl⟩ := hv
      exact fun _ => .listed trivial rfl hinput htype rfl
    · exact fun _ => .failed (by decide) (Or.inr rfl)
    · exact fun _ => .failed (by decide) (Or.inr rfl)
  · exact fun _ _ _ _ _ _ _ _ _ => trivial
  · exact fun _ hinput htype s₁ hrun => intoCases_outcome hinput htype hdata hrun.dirsAdded

end Download

end IsrTransfer
