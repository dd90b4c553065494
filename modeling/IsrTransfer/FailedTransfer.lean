import IsrTransfer.ClientRules

/-!
# What a failed transfer leaves behind

Files are received in place: the destination is opened with `O_TRUNC` and written
block by block.  So a transfer that fails after the open has changed the destination,
and nothing restores it.  What holds is that nothing else changes: no object goes
away, no other file gets other bytes, and until the destination has been opened it is
as it was too.

`Spared` is this, for any path that is the destination.  The destination is the file that the path
leads to when it is opened, after directories may have been made for it; it is given by its place
then, and a file with a second name changes under both.

On the server it can be said from the outside whether the destination has been touched, since the
handler accepts before it opens: if the client has been refused, or has been told nothing, all
files are as they were (`FailedSend`).  A transfer that breaks off after the acceptance may leave an
empty file (`failed_transfer_empties`).  For the client there is no such message, and `Spared` is
all that is said.

Everything may fail here, on the network and in the system, and what the peer sends is arbitrary.
-/

namespace IsrTransfer

open Effect Posix

variable {F : Faults} {lossy eof : Bool} {w : World}

/-- No file has other bytes than before, and none is new. -/
def SameFiles (s s' : Sys) : Prop := ∀ l, s'.fs.contents l = s.fs.contents l

/-- The file that `path` leads to was opened, after some directories had been made, and
it is the only one that has changed. -/
def OnlyDestination (path : List UInt8) (s s' : Sys) : Prop :=
  ∃ s₁ k i fd s₂, s.DirsAdded s₁ ∧ s₁.resolve path = some k ∧
    s₁.openWrite path = (some fd, s₂) ∧ s'.fs.node k = some (.file i) ∧
    ∀ l, s'.fs.contents l = s.fs.contents l ∨ s'.fs.node l = some (.file i)

/-- Everything that was there is there, and only the destination may have changed. -/
structure Spared (path : List UInt8) (s s' : Sys) : Prop where
  stands : ∀ l nd, s.fs.node l = some nd → s'.fs.node l = some nd
  files : SameFiles s s' ∨ OnlyDestination path s s'

theorem Spared.of_dirsAdded {s s' : Sys} {path : List UInt8} (h : s.fs.DirsAdded s'.fs) :
    Spared path s s' :=
  ⟨h.grows.keep, Or.inl h.contents⟩

theorem sameFiles_of_fs {s s' : Sys} (h : s'.fs = s.fs) : SameFiles s s' := fun l => by rw [h]

/-- What is there once the destination has been opened. -/
theorem onlyDestination_write {s s₁ s₂ : Sys} {path : List UInt8} {fd : Fd}
    (hdirs : s.DirsAdded s₁) (hopen : s₁.openWrite path = (some fd, s₂)) (data : List UInt8) :
    (∀ l nd, s.fs.node l = some nd → (s₂.write fd data).fs.node l = some nd) ∧
      OnlyDestination path s (s₂.write fd data) := by
  obtain ⟨k, i, hk, hop⟩ := Sys.opened_of_openWrite hopen
  refine ⟨fun l nd hl => (hop.grows_write data).keep l nd (hdirs.fs.grows.keep l nd hl), ?_⟩
  refine ⟨s₁, k, i, fd, s₂, hdirs, hk, hopen, ?_, fun l => ?_⟩
  · rw [hop.node_write, if_pos rfl]
  · rw [← hdirs.fs.contents l]
    exact hop.contents_other data l

theorem Spared.congr {path : List UInt8} {s s' s'' : Sys} (h : Spared path s s')
    (hfs : s''.fs = s'.fs) : Spared path s s'' := by
  refine ⟨fun l nd hl => by rw [hfs]; exact h.stands l nd hl, h.files.imp (fun h l => ?_) ?_⟩
  · rw [hfs, h l]
  · rintro ⟨s₁, k, i, fd, s₂, hdirs, hk, hopen, hnode, hrest⟩
    exact ⟨s₁, k, i, fd, s₂, hdirs, hk, hopen, by rw [hfs]; exact hnode,
      fun l => by rw [hfs]; exact hrest l⟩

/-! ## The server -/

/-- What a SEND that failed has left behind. -/
structure FailedSend (root path : List UInt8) (flags : UInt8) (w v : World) : Prop where
  stands : ∀ l nd, w.sys.fs.node l = some nd → v.sys.fs.node l = some nd
  /-- The destination changes after it has been accepted, and nothing else. -/
  files : SameFiles w.sys v.sys ∨ ∃ full present,
    resolvedPath w.sys root path isrPathMax = some full ∧
      w.tx ++ acceptance present <+: v.tx ∧ OnlyDestination full w.sys v.sys
  /-- A file that is refused leaves no trace. -/
  refused : hasFlag flags isrFlagCreateDirectory = false → ∀ reply, v.tx = w.tx ++ reply →
    reply.head? = some isrResultOtherFailure → v.sys = w.sys

theorem FailedSend.of_sends {root path data : List UInt8} {flags : UInt8} {v : World}
    (h : Sends lossy w data v) : FailedSend root path flags w v :=
  ⟨fun l nd hl => by rw [h.sys]; exact hl, Or.inl (sameFiles_of_fs (by rw [h.sys])),
    fun _ _ _ _ => h.sys⟩

/-- The first byte of an acceptance is not that of a refusal. -/
theorem head_acceptance (present : Bool) {k : Nat} {rest reply : List UInt8}
    (h : reply = (acceptance present).take k ++ rest) (hk : 0 < k ∨ rest = []) :
    reply.head? ≠ some isrResultOtherFailure := by
  subst h
  obtain ⟨b, bs, hb, hne⟩ : ∃ b bs, acceptance present = b :: bs ∧ b ≠ isrResultOtherFailure := by
    cases present
    · exact ⟨_, _, rfl, by decide⟩
    · exact ⟨_, _, rfl, by decide⟩
  rw [hb]
  rcases Nat.eq_zero_or_pos k with rfl | hpos
  · rw [hk.resolve_left (by decide)]
    simp
  · obtain ⟨j, rfl⟩ : ∃ j, k = j + 1 := ⟨k - 1, by omega⟩
    simpa using hne

/-- The failures after the existence checks. -/
theorem acceptFile_failed {L : Lz4} {fuel : Nat} {header : IsrSendCommandHeader}
    {root path full : List UInt8} {present : Bool}
    (hfull : resolvedPath w.sys root path isrPathMax = some full) :
    AcceptCases F lossy eof Anything L fuel header full present
      (fun r v => r = -1 → FailedSend root path header.flags w v) w := by
  have hdirs : ∀ {s k}, Mkdirs F w.sys (parentTargets full) s → ∀ v,
      v = (w.withSys s).sent ((acceptance present).take k) →
      FailedSend root path header.flags w v := by
    rintro s k hs v rfl
    have hadded := hs.dirsAdded.fs
    refine ⟨hadded.grows.keep, Or.inl hadded.contents, fun _ reply htx hhead => ?_⟩
    have hreply : reply = (acceptance present).take k ++ [] := by
      rw [List.append_nil]
      exact (List.append_cancel_left htx).symm
    exact absurd hhead (head_acceptance present hreply (Or.inr rfl))
  constructor
  · exact fun _ _ _ _ _ _ => trivial
  · exact fun _ _ => trivial
  · exact fun s k hs _ _ _ => hdirs hs _ rfl
  · intro s hs _ _
    refine hdirs (k := (acceptance present).length) hs _ ?_
    rw [List.take_length]
  · intro s fd s' hs hopen
    refine ensures_receiveFile_outline permits_anything (fun _ _ _ _ _ _ => trivial)
      (fun _ _ => trivial) fun r data k u hu _ => ?_
    obtain ⟨hstands, honly⟩ := onlyDestination_write hs.dirsAdded hopen data
    obtain ⟨rest, htx⟩ : ∃ rest, u.tx = w.tx ++ acceptance present ++ rest := by
      rcases hu with rfl | ⟨-, j, -, rfl⟩
      · exact ⟨_, rfl⟩
      · exact ⟨_, rfl⟩
    refine ⟨?_, Or.inr ⟨full, present, hfull, ⟨rest, htx.symm⟩, ?_⟩, fun _ reply hreply hhead => ?_⟩
    · rw [hu.sys]
      exact hstands
    · rw [hu.sys]
      exact honly
    · rw [htx, List.append_assoc] at hreply
      have hall : (acceptance present).take sizeofResponse = acceptance present :=
        List.take_of_length_le (Nat.le_of_eq (length_sendResponse _ _))
      have hsplit : reply = (acceptance present).take sizeofResponse ++ rest := by
        rw [hall]
        exact (List.append_cancel_left hreply).symm
      exact absurd hhead (head_acceptance present hsplit (Or.inl (by decide)))

theorem send_failed {L : Lz4} {fuel : Nat} {root path : List UInt8}
    {header : IsrSendCommandHeader} :
    Ensures (machine F lossy eof) Anything (isrReceiveSendCommand L fuel root header path)
      (fun r v => r = -1 → FailedSend root path header.flags w v) w := by
  refine ensures_isrReceiveSendCommand permits_anything (fun _ _ => trivial)
    (fun _ v hv _ => .of_sends hv) (fun _ _ v hv _ => .of_sends hv) fun _ full hfull => ?_
  constructor
  · exact fun _ _ _ _ _ _ _ => trivial
  · intro hflag ps p s r s' v _ hrun hr hv _
    have hadded := (hrun.dirsAdded.trans hr.dirsAdded).fs
    have hsys : v.sys = s' := hv.sys
    refine ⟨fun l nd hl => ?_, Or.inl fun l => ?_, fun hno => absurd hflag (by simp [hno])⟩
    · rw [hsys]
      exact hadded.grows.keep l nd hl
    · rw [hsys]
      exact hadded.contents l
  · exact fun _ => trivial
  · exact fun _ _ v _ hv _ => .of_sends hv
  · exact fun _ _ v _ _ hv _ => .of_sends hv
  · exact fun _ _ => acceptFile_failed hfull
  · exact fun _ _ _ _ => acceptFile_failed hfull

/-! ## The client -/

/-- The part of a download that writes the file. -/
theorem intoCases_spared {L : Lz4} {fuel : Nat} {flags : UInt8} {blockSize n : Nat}
    {outPath : List UInt8} {s : Sys} {u : World} (hdirs : s.DirsAdded u.sys) :
    IntoCases F lossy eof Anything L fuel flags blockSize n outPath
      (fun r v => r = -1 → Spared outPath s v.sys) u := by
  constructor
  · exact trivial
  · intro _ v hv _
    exact (Spared.of_dirsAdded hdirs.fs).congr hv.fs
  · intro fd s' hopen
    refine ensures_receiveFile_outline permits_anything (fun _ _ _ _ _ _ => trivial)
      (fun _ _ => trivial) fun r data k => ⟨fun _ v hv _ => ?_, fun _ h => absurd h (by decide)⟩
    obtain ⟨hstands, honly⟩ := onlyDestination_write hdirs hopen data
    exact Spared.congr ⟨hstands, Or.inr honly⟩ hv.fs

/-- What has been complained about has not been touched. -/
theorem Complains.spared {path : List UInt8} {u v : World} (h : Complains u v)
    (hfs : u.sys.fs = w.sys.fs) : Spared path w.sys v.sys :=
  Spared.congr (Spared.of_dirsAdded (FS.DirsAdded.refl _)) (h.fs.trans hfs)

theorem connectCases_spared {path command : List UInt8} :
    ConnectCases F lossy eof Anything command
      (fun conf v => conf = none → (-1 : Int) = -1 → Spared path w.sys v.sys) w := by
  constructor
  · exact trivial
  · exact fun _ v hv _ _ => hv.spared rfl
  · exact fun _ _ _ v hv _ _ => hv.spared rfl
  · exact fun _ _ _ _ => trivial
  · exact fun _ _ v _ _ _ hv _ _ => hv.spared rfl
  · exact fun _ _ h => absurd h (by simp)

theorem download_failed {L : Lz4} {fuel : Nat} {remotePath localPath : List UInt8}
    {flags : UInt8} {blockSize : Nat} :
    Ensures (machine F lossy eof) Anything
      (isrCliDownloadFile L fuel remotePath localPath flags blockSize)
      (fun r v => r = -1 → Spared localPath w.sys v.sys) w := by
  refine ensures_isrCliDownloadFile permits_anything ?_
  constructor
  · exact connectCases_spared
  · exact fun _ v _ _ hv _ => hv.spared rfl
  · exact fun _ _ v _ _ hv _ => hv.spared rfl
  · exact fun _ _ _ _ _ _ _ _ _ => trivial
  · exact fun _ _ _ s hs => intoCases_spared hs.dirsAdded

theorem recv_failed {L : Lz4} {fuel : Nat} {remotePath localDir : List UInt8}
    {flags : UInt8} {blockSize : Nat} :
    Ensures (machine F lossy eof) Anything
      (isrCliRecv L fuel remotePath localDir flags blockSize)
      (fun r v => r = -1 →
        Spared (snprintfPath localDir (basename remotePath) isrPathMax) w.sys v.sys) w := by
  refine ensures_isrCliRecv permits_anything ?_
  constructor
  · exact connectCases_spared
  · exact fun _ v _ _ _ hv _ => hv.spared rfl
  · exact fun _ _ v _ hv _ => hv.spared rfl
  · intro input _ _
    have hsame : ∀ {s' : Sys}, s'.fs = w.sys.fs → Spared
        (snprintfPath localDir (basename remotePath) isrPathMax) w.sys s' :=
      fun h => Spared.congr (Spared.of_dirsAdded (FS.DirsAdded.refl _)) h
    refine ensures_isrReceiveDirectoryListing permits_anything (fun _ _ _ _ _ _ _ => trivial)
      (fun _ _ v hv _ => ?_) (fun _ _ _ => hsame rfl) (fun _ _ _ _ _ => hsame rfl)
    obtain ⟨lines, rfl⟩ := hv
    exact hsame rfl
  · exact fun _ _ _ _ _ _ _ _ _ => trivial
  · exact fun _ _ _ s hs => intoCases_spared hs.dirsAdded

/-- **What a failed transfer leaves behind.**  Wherever it fails, on the server or on the
client, everything that was there is there, and every file has the bytes it had except
the destination, which is only touched once it has been opened for writing --- on the
server not before the client has been told that the file is accepted. -/
theorem failed_transfer (L : Lz4) (fuel : Nat) (root path : List UInt8)
    (header : IsrSendCommandHeader) (remotePath localPath localDir : List UInt8) (flags : UInt8)
    (blockSize : Nat) (w : World) :
    Ensures (machine F lossy eof) Anything (isrReceiveSendCommand L fuel root header path)
      (fun r v => r = -1 → FailedSend root path header.flags w v) w ∧
    Ensures (machine F lossy eof) Anything
      (isrCliDownloadFile L fuel remotePath localPath flags blockSize)
      (fun r v => r = -1 → Spared localPath w.sys v.sys) w ∧
    Ensures (machine F lossy eof) Anything
      (isrCliRecv L fuel remotePath localDir flags blockSize)
      (fun r v => r = -1 →
        Spared (snprintfPath localDir (basename remotePath) isrPathMax) w.sys v.sys) w :=
  ⟨send_failed, download_failed, recv_failed⟩

/-- A file `/f` with one byte. -/
def oneByte : Sys := Sys.initial ((FS.empty.makeFile [[0x66]]).setData 0 [7])

/-- **A failed transfer empties its destination.**  The client asks for `/f` to be
overwritten and closes the connection; the other way round, the server confirms a file
of one byte and closes the connection. -/
theorem failed_transfer_empties :
    (∃ v, Reaches (machine Faults.none true true)
      (isrReceiveSendCommand shortLz4 1 [slash] ⟨isrFlagOverwrite, 1, 1, 1⟩ [0x66])
      (Proc.start oneByte []) (.ret (-1)) v ∧
      oneByte.fs.contents [[0x66]] = some [7] ∧ v.sys.fs.contents [[0x66]] = some []) ∧
    (∃ v, Reaches (machine Faults.none true true)
      (isrCliDownloadFile shortLz4 1 [0x66] [slash, 0x66] 0 1)
      (Proc.start oneByte []) (.ret (-1)) v ∧ v.sys.fs.contents [[0x66]] = some []) := by
  constructor
  · obtain ⟨r, v, hreach, heq⟩ := reaches_execute (F := Faults.none) (b := true) (i := [])
      (p := isrReceiveSendCommand shortLz4 1 [slash] ⟨isrFlagOverwrite, 1, 1, 1⟩ [0x66])
      (w := Proc.start oneByte []) (g := fun av => (av.1, av.2.sys.fs.contents [[0x66]]))
      (y := (-1, some [])) (by decide +kernel)
    obtain ⟨rfl, hfile⟩ := Prod.mk.inj heq
    exact ⟨v, hreach, rfl, hfile⟩
  · obtain ⟨r, v, hreach, heq⟩ := reaches_execute (F := Faults.none) (b := true)
      (i := confirmation isrRecvTypeFile 1)
      (p := isrCliDownloadFile shortLz4 1 [0x66] [slash, 0x66] 0 1)
      (w := Proc.start oneByte []) (g := fun av => (av.1, av.2.sys.fs.contents [[0x66]]))
      (y := (-1, some [])) (by decide +kernel)
    obtain ⟨rfl, hfile⟩ := Prod.mk.inj heq
    exact ⟨v, hreach, hfile⟩

end IsrTransfer
