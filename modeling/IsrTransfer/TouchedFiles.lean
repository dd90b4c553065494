import IsrTransfer.DownloadParts
import IsrTransfer.StoredFiles

/-!
# What a download leaves as it is

A download makes directories, and opens and writes one file.  So nothing that stood is gone,
every path leads where it led, and a file has other bytes only if the path of the download
leads to it (`Sys.Touched`).  The relation composes, and with the paths of a whole tree it says
what a recursive download has touched.

A file is meant by its inode here, and paths are paths of the local system with whatever links
there are: that two paths lead to one file is possible, and it is for those who use the relation
to exclude it where it matters.  The paths are taken in the state afterwards; a path that led to
a file before still does (`Sys.LeadsFile.touched`).

For the download of one file there is a little more to say (`DownloadEnd`): the file is touched
only if the server has confirmed one, and if the operation returns `0`, the path leads to a file
with what has been made of the data.  All of this holds whatever fails.
-/

namespace IsrTransfer

open Effect Posix

variable {F : Faults} {lossy eof : Bool} {w : World}

/-! ## Files that are touched -/

namespace Posix

variable {X Y : List UInt8 → Prop} {s s' s'' : Sys} {path : List UInt8} {i : Nat}

/-- `path` leads to a file with the inode `i`. -/
def Sys.LeadsFile (s : Sys) (path : List UInt8) (i : Nat) : Prop :=
  ∃ k, s.resolve path = some k ∧ s.fs.node k = some (.file i)

/-- `path` leads to a directory. -/
def Sys.LeadsDir (s : Sys) (path : List UInt8) : Prop :=
  ∃ k, s.resolve path = some k ∧ s.fs.node k = some .dir

/-- Nothing is gone, and a file has other bytes only if a path of `X` leads to it. -/
structure Sys.Touched (X : List UInt8 → Prop) (s s' : Sys) : Prop where
  grows : s.fs.Grows s'.fs
  cwd : s'.cwd = s.cwd
  files : ∀ k i, s.fs.node k = some (.file i) →
    s'.fs.data i = s.fs.data i ∨ ∃ path, X path ∧ s'.LeadsFile path i

theorem Sys.Touched.resolve (h : s.Touched X s') {k : Loc} (hk : s.resolve path = some k) :
    s'.resolve path = some k := by
  unfold Sys.resolve at hk ⊢
  rw [h.cwd]
  exact FS.resolve_grows h.grows hk

theorem Sys.LeadsFile.touched (hl : s.LeadsFile path i) (h : s.Touched X s') :
    s'.LeadsFile path i := by
  obtain ⟨k, hk, hi⟩ := hl
  exact ⟨k, h.resolve hk, h.grows.keep k _ hi⟩

theorem Sys.Touched.refl (X : List UInt8 → Prop) (s : Sys) : s.Touched X s :=
  ⟨FS.Grows.refl _, rfl, fun _ _ _ => Or.inl rfl⟩

theorem Sys.Touched.mono (h : s.Touched X s') (hXY : ∀ path, X path → Y path) :
    s.Touched Y s' :=
  ⟨h.grows, h.cwd, fun k i hi => (h.files k i hi).imp id fun hp =>
    hp.imp fun path hpath => ⟨hXY path hpath.1, hpath.2⟩⟩

theorem Sys.Touched.trans (h : s.Touched X s') (h' : s'.Touched X s'') : s.Touched X s'' := by
  refine ⟨h.grows.trans h'.grows, h'.cwd.trans h.cwd, fun k i hi => ?_⟩
  rcases h.files k i hi with hdata | ⟨path, hX, hlead⟩
  · rcases h'.files k i (h.grows.keep k _ hi) with hdata' | hlead
    · exact Or.inl (hdata'.trans hdata)
    · exact Or.inr hlead
  · exact Or.inr ⟨path, hX, hlead.touched h'⟩

theorem Sys.Touched.of_dirsAdded (h : s.fs.DirsAdded s'.fs) (hcwd : s'.cwd = s.cwd) :
    s.Touched X s' :=
  ⟨h.grows, hcwd, fun _ i _ => Or.inl (by rw [h.data])⟩

/-- What stands beside the file system does not matter. -/
theorem Sys.Touched.congr (h : s.Touched X s') (hfs : s''.fs = s'.fs) (hcwd : s''.cwd = s'.cwd) :
    s.Touched X s'' :=
  h.trans ⟨by rw [hfs]; exact FS.Grows.refl _, hcwd, fun _ i _ => Or.inl (by rw [hfs])⟩

end Posix

theorem Written.touched {s s' : Sys} {path data : List UInt8} (h : Written s path data s') :
    s.Touched (fun p => p = path) s' := by
  obtain ⟨s₁, fd, s₂, hdirs, hopen, rfl⟩ := h
  obtain ⟨k, i, hk, hop⟩ := Sys.opened_of_openWrite hopen
  refine (Sys.Touched.of_dirsAdded hdirs.fs hdirs.cwd).trans ⟨hop.grows_write data, ?_, ?_⟩
  · rw [Sys.write_cwd, hop.cwd]
  · intro l j _
    by_cases hj : j = i
    · refine Or.inr ⟨path, rfl, k, ?_, ?_⟩
      · unfold Sys.resolve at hk ⊢
        rw [Sys.write_cwd, hop.cwd]
        exact FS.resolve_grows (hop.grows_write data) hk
      · rw [hop.node_write, if_pos rfl, hj]
    · exact Or.inl (by rw [hop.data_write, if_neg hj])

theorem Complains.cwd {v : World} (h : Complains w v) : v.sys.cwd = w.sys.cwd := by
  obtain ⟨lines, -, rfl⟩ := h
  rfl

theorem Posix.Sys.Touched.complains {X : List UInt8 → Prop} {s : Sys} {v : World}
    (h : s.Touched X w.sys) (hv : Complains w v) : s.Touched X v.sys :=
  h.congr hv.fs hv.cwd

/-! ## The download of a file -/

section File

variable {L : Lz4} {fuel : Nat} {flags : UInt8} {blockSize : Nat}
  {remotePath localPath down : List UInt8} {P : List UInt8 → Prop}

/-- The server has been asked with `command`, and has confirmed a file. -/
structure FileConfirmed (command : List UInt8) (v : World) : Prop where
  asked : command <+: v.tx
  length : sizeofRecvConfirmation ≤ v.input.length
  type : (confirmationOf v.input).responseType = isrRecvTypeFile

/-- How `isr_cli_download_file` ends, if what it makes of the data in `down` satisfies `P`. -/
structure DownloadEnd (P : List UInt8 → Prop) (down command localPath : List UInt8) (s : Sys)
    (r : Int) (v : World) : Prop where
  result : r = 0 ∨ r = -1
  touched : s.Touched (fun p => p = localPath ∧ FileConfirmed command v) v.sys
  confirmed : r = 0 → FileConfirmed command v
  received : r = 0 → v.input = down → ∃ data, P data ∧ v.sys.bytesAt localPath = some data

theorem DownloadEnd.failed {command : List UInt8} {s : Sys} {v : World}
    (h : s.Touched (fun p => p = localPath ∧ FileConfirmed command v) v.sys) :
    DownloadEnd P down command localPath s (-1) v :=
  ⟨Or.inr rfl, h, fun h => absurd h (by decide), fun h => absurd h (by decide)⟩

/-- The rule for `isr_cli_download_file`, whatever fails. -/
theorem ensures_isrCliDownloadFile_end
    (hdata : ∀ (u : World) (fd : Fd), u.rx = down.drop sizeofRecvConfirmation →
      Ensures (machine F lossy eof) Anything
        (receiveFile L fuel fd flags blockSize (confirmationOf down).effectiveLength)
        (fun r v => ∃ out k, v = taken u fd out k ∧ (¬ Failed r → P out)) u) :
    Ensures (machine F lossy eof) Anything
      (isrCliDownloadFile L fuel remotePath localPath flags blockSize)
      (DownloadEnd P down (recvCommandBytes remotePath flags blockSize) localPath w.sys) w := by
  have hsame : ∀ {u v : World}, Complains u v → u.sys = w.sys →
      DownloadEnd P down (recvCommandBytes remotePath flags blockSize) localPath w.sys (-1) v := by
    intro u v hv hu
    refine .failed (Sys.Touched.complains ?_ hv)
    rw [hu]
    exact Sys.Touched.refl _ _
  refine ensures_isrCliDownloadFile permits_anything ?_
  constructor
  · constructor
    · exact trivial
    · exact fun _ v hv _ => hsame hv rfl
    · exact fun _ _ _ v hv _ => hsame hv rfl
    · exact fun _ _ _ _ => trivial
    · exact fun _ _ v _ _ _ hv _ => hsame hv rfl
    · exact fun _ _ h => absurd h (by simp)
  · exact fun _ v _ _ hv => hsame hv rfl
  · exact fun _ _ v _ _ hv => hsame hv rfl
  · exact fun _ _ _ _ _ _ _ _ _ => trivial
  · intro input hlen htype s₁ hrun
    have hdirs := hrun.dirsAdded
    constructor
    · exact trivial
    · exact fun _ v hv => .failed (Sys.Touched.complains (.of_dirsAdded hdirs.fs hdirs.cwd) hv)
    · intro fd s₂ hopen
      have hwritten : ∀ out, Written w.sys localPath out (s₂.write fd out) :=
        fun out => ⟨s₁, fd, s₂, hdirs, hopen, rfl⟩
      have htouched : ∀ {out : List UInt8} {v : World},
          FileConfirmed (recvCommandBytes remotePath flags blockSize) v →
          w.sys.Touched (fun p => p = localPath ∧
            FileConfirmed (recvCommandBytes remotePath flags blockSize) v) (s₂.write fd out) :=
        fun {out _} hv => (hwritten out).touched.mono fun _ hp => ⟨hp, hv⟩
      have hconfirmed : ∀ {v : World},
          v.tx = recvCommandBytes remotePath flags blockSize ++ [isrRecvGo] → v.input = input →
          FileConfirmed (recvCommandBytes remotePath flags blockSize) v := by
        rintro v htx rfl
        exact ⟨⟨_, htx.symm⟩, hlen, htype⟩
      by_cases hdown : input = down
      · subst hdown
        refine (hdata _ fd rfl).mono ?_
        rintro r v ⟨out, k, rfl, hP⟩
        refine ⟨fun _ u hu => .failed ((htouched (hconfirmed hu.tx hu.input)).complains hu),
          fun hok => ?_⟩
        refine ⟨Or.inl rfl, htouched (hconfirmed rfl rfl), fun _ => hconfirmed rfl rfl,
          fun _ _ => ⟨out, hP fun h => hok h.taken, ?_⟩⟩
        obtain ⟨j, hj, hbytes⟩ := (hwritten out).bytesAt
        exact (Sys.bytesAt_of_resolve hj).trans hbytes
      · refine ensures_receiveFile_outline permits_anything (fun _ _ _ _ _ _ => trivial)
          (fun _ _ => trivial) fun r out k => ?_
        refine ⟨fun _ u hu => .failed ((htouched (hconfirmed hu.tx hu.input)).complains hu),
          fun _ => ?_⟩
        exact ⟨Or.inl rfl, htouched (hconfirmed rfl rfl), fun _ => hconfirmed rfl rfl,
          fun _ hin => absurd hin hdown⟩

end File

/-! ## What comes before the entries -/

section Fetch

variable {flags : UInt8} {blockSize : Nat} {remotePath localDir : List UInt8}
  {X : List UInt8 → Prop} {s : Sys}

/-- `recv_connect` changes no file, and a confirmation that it gives out is the one that the
server has sent in answer to the command. -/
theorem ensures_recvConnect_end :
    Ensures (machine F lossy eof) Anything (recvConnect remotePath flags blockSize)
      (fun conf v => w.sys.Touched X v.sys ∧ ∀ c, conf = some c → ∃ input,
        sizeofRecvConfirmation ≤ input.length ∧ c = confirmationOf input ∧
        v = confirmedWorld w.sys input (recvCommandBytes remotePath flags blockSize)) w := by
  have hsame : ∀ {u v : World}, Complains u v → u.sys = w.sys → w.sys.Touched X v.sys :=
    fun hv hu => Sys.Touched.complains (by rw [hu]; exact Sys.Touched.refl _ _) hv
  refine ensures_recvConnect permits_anything ?_
  constructor
  · exact trivial
  · exact fun _ v hv => ⟨hsame hv rfl, fun _ h => absurd h (by simp)⟩
  · exact fun _ _ _ v hv => ⟨hsame hv rfl, fun _ h => absurd h (by simp)⟩
  · exact fun _ _ _ _ => trivial
  · exact fun _ _ v _ _ _ hv => ⟨hsame hv rfl, fun _ h => absurd h (by simp)⟩
  · exact fun input hlen => ⟨Sys.Touched.refl _ _, fun c hc =>
      ⟨input, hlen, (Option.some.inj hc).symm, rfl⟩⟩

theorem ensures_noteFailure_touched {ret result : Int} {format : String} {path : List UInt8} :
    Ensures (machine F lossy eof) Anything (noteFailure ret format path result)
      (fun r v => w.sys.Touched X v.sys ∧ r = if ret = 0 then result else -1) w := by
  unfold noteFailure
  by_cases h : ret ≠ 0
  · rw [if_pos h, ensures_bind, complain, ensures_eprint]
    exact ⟨trivial, (Sys.Touched.refl _ _).congr rfl rfl, (if_neg h).symm⟩
  · rw [if_neg h]
    exact ⟨Sys.Touched.refl _ _, (if_pos (not_not.mp h)).symm⟩

theorem ensures_mkdir_touched {path : List UInt8} (h : s.Touched X w.sys) :
    Ensures (machine F lossy eof) Anything (isrMkdirRecursive path)
      (fun _ v => s.Touched X v.sys) w :=
  ensures_isrMkdirRecursive' (fun _ _ _ _ _ _ => trivial) fun _ _ hrun =>
    h.trans (.of_dirsAdded hrun.dirsAdded.fs hrun.dirsAdded.cwd)

/-- What comes before the loop over the entries makes directories at most. -/
theorem ensures_fetchEntries_touched {conf : IsrRecvConfirmation} (h : s.Touched X w.sys) :
    Ensures (machine F lossy eof) Anything (fetchEntries localDir conf)
      (fun _ v => s.Touched X v.sys) w := by
  have hentries : ∀ {parsed : Option (List IsrCliDirEntry) × Nat} {v : World},
      s.Touched X v.sys → Ensures (machine F lossy eof) Anything (entriesInto localDir parsed)
        (fun _ v => s.Touched X v.sys) v := by
    intro parsed v hv
    unfold entriesInto
    split
    · exact ensures_complainFail permits_anything (by decide) fun _ hu => hv.complains hu
    · rw [ensures_bind]
      exact ensures_mkdir_touched hv
  unfold fetchEntries
  rw [ensures_bind]
  refine ensures_sendGo permits_anything ?_ fun _ v hv => ?_
  · rw [if_neg (by decide), ensures_bind]
    refine ensures_recvVerifiedListing permits_anything (fun _ _ _ _ _ _ _ => trivial) ?_ ?_ ?_
    · intro _ _
      rw [ensures_bind, ensures_netClose]
      refine ⟨trivial, ?_⟩
      generalize List.take _ _ = buf
      obtain ⟨es, rest, hes, hrest, rfl⟩ := exists_records buf
      simp only [ensures_bind]
      exact ensures_isrCliParseDirectoryListing permits_anything hes hrest
        (fun _ => hentries h) (fun _ => hentries h) (fun _ => hentries h)
    · intro _ _
      rw [ensures_bind, ensures_netClose]
      exact ⟨trivial, h.congr rfl rfl⟩
    · intro _ _ _ _
      rw [ensures_bind, ensures_netClose]
      exact ⟨trivial, h⟩
  · rw [if_pos rfl, ensures_bind, ensures_netClose]
    exact ⟨trivial, h.complains hv⟩

end Fetch

end IsrTransfer
