import IsrTransfer.Resolution
import IsrTransfer.ServerRules

/-!
# Nothing is overwritten without consent

As long as no client sets the overwrite flag, and there are no links below the root,
the server leaves every file alone that is there already.

A SEND without the flag goes on only if `stat` finds nothing.  Then directories are
made, and the file is opened with `O_TRUNC`; what has to be excluded is that the
path leads to an existing file by then.  Without links it does not: a walk that ends
at an object which stood before already would have succeeded before
(`Continues.resolve_back`), and `stat` would have found it.  So the open makes a new
file, and all that is written goes to a new inode (`OldUntouched`).
-/

namespace IsrTransfer

open Effect Posix

variable {F : Faults} {lossy eof : Bool} {w : World}

/-! ## Files that are left alone -/

/-- `fs'` has grown from `fs`, and no inode that was in use has other bytes. -/
structure OldUntouched (fs fs' : FS) : Prop where
  grows : fs.Grows fs'
  data : ∀ i, i < fs.fresh → fs'.data i = fs.data i

theorem OldUntouched.refl (fs : FS) : OldUntouched fs fs := ⟨FS.Grows.refl fs, fun _ _ => rfl⟩

theorem OldUntouched.trans {a b c : FS} (h : OldUntouched a b) (h' : OldUntouched b c) :
    OldUntouched a c :=
  ⟨h.grows.trans h'.grows, fun i hi =>
    (h'.data i (Nat.lt_of_lt_of_le hi h.grows.fresh)).trans (h.data i hi)⟩

/-- Every file that was there has the bytes it had. -/
theorem OldUntouched.contents {fs fs' : FS} (h : OldUntouched fs fs') {l : Loc}
    {bs : List UInt8} (hl : fs.contents l = some bs) : fs'.contents l = some bs := by
  obtain ⟨i, hi, rfl⟩ := FS.contents_eq_some.mp hl
  exact FS.contents_eq_some.mpr ⟨i, h.grows.keep l _ hi, h.data i (FS.ino_lt_fresh hi)⟩

theorem OldUntouched.of_dirsAdded {fs fs' : FS} (h : fs.DirsAdded fs') : OldUntouched fs fs' :=
  ⟨h.grows, fun i _ => by rw [h.data]⟩

/-- A new file with its own inode, and whatever is written to it. -/
theorem oldUntouched_newFile (fs : FS) (l : Loc) (bs : List UInt8) :
    OldUntouched fs ((fs.makeFile l).setData fs.fresh bs) := by
  refine ⟨(FS.grows_makeFile fs l).trans (FS.grows_setData _ _ _), fun i hi => ?_⟩
  rw [FS.data_setData_of_ne (by omega)]
  unfold FS.makeFile
  split
  · rw [FS.data_setData_of_ne (by omega), FS.data_insert]
  · rfl

/-! ## Opening what is not there -/

/-- An open for writing that finds no file makes one. -/
theorem openWrite_new {s s' : Sys} {path data : List UInt8} {fd : Fd}
    (hopen : s.openWrite path = (some fd, s'))
    (hno : ∀ k i, s.resolve path = some k → s.fs.node k ≠ some (.file i)) :
    OldUntouched s.fs (s'.write fd data).fs := by
  unfold Sys.openWrite at hopen
  split at hopen
  · exact absurd (congrArg Prod.fst hopen) (by simp)
  · rename_i k hk
    split at hopen
    · rename_i i hi
      exact absurd hi (hno k i hk)
    · split at hopen
      · simp only [Sys.newFd, Prod.mk.injEq, Option.some.injEq] at hopen
        obtain ⟨rfl, rfl⟩ := hopen
        exact oldUntouched_newFile s.fs k _
      · exact absurd (congrArg Prod.fst hopen) (by simp)
    · exact absurd (congrArg Prod.fst hopen) (by simp)

/-- What `stat` does not find, and what is not a file after directories have been
made, is not a file. -/
theorem not_file_of_stat_none {s s₁ : Sys} {root relative full : List UInt8} {l k : Loc}
    {i : Nat} (hroot : Canonical s.fs root l) (hlinks : s.fs.NoLinksBelow l)
    (hvalid : isrValidatePath relative ≠ -1)
    (hfull : resolvedPath s root relative isrPathMax = some full)
    (hstat : s.StatStep full none) (hdirs : s.DirsAdded s₁)
    (hk : s₁.resolve full = some k) : s₁.fs.node k ≠ some (.file i) := by
  intro hfile
  have hcwd : s₁.cwd = s.cwd := by
    obtain ⟨fs, -, rfl⟩ := hdirs
    rfl
  have hold : s.fs.node k = some (.file i) := hdirs.fs.file.mp hfile
  obtain ⟨-, cs, hcont, hcs, -⟩ :=
    resolvedPath_plain hroot hlinks (dotdot_notMem_of_valid hvalid) hfull
  have hback : s.resolve full = some k := by
    unfold Sys.resolve at hk ⊢
    rw [hcwd] at hk
    exact hcont.resolve_back hcs hroot.dir hdirs.fs.grows (hlinks.grows hdirs.fs.grows) hk hold
  exact (Sys.statStep_none hstat hback).2 i hold

/-! ## One connection -/

/-- The SEND handler, without the overwrite flag. -/
theorem send_oldUntouched {L : Lz4} {fuel : Nat} {root path : List UInt8} {l : Loc}
    {header : IsrSendCommandHeader} (hroot : Canonical w.sys.fs root l)
    (hlinks : w.sys.fs.NoLinksBelow l) (hflag : hasFlag header.flags isrFlagOverwrite = false) :
    Ensures (machine F lossy eof) Anything (isrReceiveSendCommand L fuel root header path)
      (fun _ v => OldUntouched w.sys.fs v.sys.fs) w := by
  have hsame : ∀ {data v}, Sends lossy w data v → OldUntouched w.sys.fs v.sys.fs := by
    intro data v hv
    rw [hv.sys]
    exact OldUntouched.refl _
  refine ensures_isrReceiveSendCommand permits_anything (fun _ _ => trivial)
    (fun _ v hv => hsame hv) (fun _ _ v hv => hsame hv) fun hvalid full hfull => ?_
  constructor
  · exact fun _ _ _ _ _ _ _ => trivial
  · intro _ ps p s r s' v _ hrun hr hv
    rw [hv.sys]
    exact OldUntouched.of_dirsAdded (hrun.dirsAdded.trans hr.dirsAdded).fs
  · exact fun _ => trivial
  · exact fun _ _ v _ hv => hsame hv
  · exact fun _ _ v _ _ hv => hsame hv
  · -- the path was free
    intro _ hstat
    constructor
    · exact fun _ _ _ _ _ _ => trivial
    · exact fun _ _ => trivial
    · exact fun s k hrun _ _ => OldUntouched.of_dirsAdded hrun.dirsAdded.fs
    · exact fun s hrun _ => OldUntouched.of_dirsAdded hrun.dirsAdded.fs
    · intro s fd s' hrun hopen
      have hdirs := hrun.dirsAdded
      refine ensures_receiveFile_outline permits_anything (fun _ _ _ _ _ _ => trivial)
        (fun _ _ => trivial) fun r data k u hu => ?_
      rw [hu.sys]
      refine (OldUntouched.of_dirsAdded hdirs.fs).trans (openWrite_new hopen ?_)
      exact fun k i hk => not_file_of_stat_none hroot hlinks hvalid hfull hstat hdirs hk
  · -- the flag is not set
    intro _ size _ hover
    exact absurd hover (by simp [hflag])

/-- The RECV handler changes no file. -/
theorem recv_fs {L : Lz4} {fuel : Nat} {root path : List UInt8} {header : IsrRecvCommandHeader} :
    Ensures (machine F lossy eof) Anything (isrReceiveRecvCommand L fuel root header path)
      (fun _ v => v.sys.fs = w.sys.fs) w := by
  have hsame : ∀ {data v}, Sends lossy w data v → v.sys.fs = w.sys.fs :=
    fun hv => by rw [hv.sys]
  refine ensures_isrReceiveRecvCommand permits_anything (fun _ _ => trivial)
    (fun _ v hv => hsame hv) (fun _ _ _ => trivial) (fun _ _ _ _ v hv => hsame hv)
    (fun _ full size _ _ => ?_) (fun _ full size _ _ => ?_)
  · refine ensures_isrTransmitRecvDirectoryListing permits_anything ?_
    constructor
    · exact trivial
    · exact fun _ => trivial
    · exact fun _ => rfl
    · exact fun _ _ _ _ => rfl
    · exact fun _ => trivial
    · exact fun _ _ => rfl
    · exact fun _ _ _ => rfl
    · exact fun _ _ _ _ _ _ _ _ => rfl
    · exact fun _ _ _ _ _ _ => rfl
  · constructor
    · exact fun _ _ _ => rfl
    · exact trivial
    · exact fun _ => rfl
    · exact fun _ _ => rfl
    · exact fun _ _ _ _ => trivial
    · exact fun _ _ _ _ _ => rfl
    · intro go rest fd s _ _ hopen
      have hs : s.fs = w.sys.fs := by
        rw [show s = (w.sys.openRead full).2 from (congrArg Prod.snd hopen).symm]
        exact Sys.openRead_fs _ _
      refine ensures_transmitFile_outline permits_anything (fun _ _ => trivial) ?_
      intro r s' data hread
      exact hread.fs.trans hs

/-- The client asks for nothing to be overwritten. -/
def NoOverwrite (input : List UInt8) : Prop :=
  input.head? = some isrCommandSend → hasFlag (sendHeader input).flags isrFlagOverwrite = false

instance : DecidablePred NoOverwrite := fun input =>
  inferInstanceAs (Decidable (input.head? = some isrCommandSend →
    hasFlag (sendHeader input).flags isrFlagOverwrite = false))

/-- **One connection**, whatever the client sends, and wherever it breaks off.  A file is
opened for writing only behind the check that nothing is there. -/
theorem connection_oldUntouched {L : Lz4} {fuel : Nat} {root input : List UInt8} {l : Loc}
    {s : Sys} (hroot : Canonical s.fs root l) (hlinks : s.fs.NoLinksBelow l)
    (hinput : NoOverwrite input) :
    Ensures (machine F lossy eof) Anything (serveConnection L fuel root)
      (fun _ v => OldUntouched s.fs v.sys.fs) (Proc.start s input) := by
  refine ensures_serveConnection permits_anything
    (ensures_isrReceiveCommand permits_anything ?_)
  constructor
  · exact fun _ _ _ _ _ _ _ => trivial
  · exact fun _ _ _ _ => OldUntouched.refl _
  · exact fun _ _ _ _ => OldUntouched.refl _
  · exact fun _ _ _ _ _ _ => OldUntouched.refl _
  · intro hcmd _ _
    exact send_oldUntouched (w := (Proc.start s input).received _) hroot hlinks (hinput hcmd)
  · intro _ _ _
    refine (recv_fs (w := (Proc.start s input).received _)).mono fun _ v hv => ?_
    rw [hv]
    exact OldUntouched.refl _

/-! ## Runs -/

theorem ServerRun.oldUntouched {L : Lz4} {root : List UInt8} {l : Loc} {s s' : Sys}
    {inputs : List (List UInt8)} (h : ServerRun F L root s inputs s')
    (hroot : Canonical s.fs root l) (hlinks : s.fs.NoLinksBelow l)
    (hinputs : ∀ input ∈ inputs, NoOverwrite input) : OldUntouched s.fs s'.fs := by
  induction h with
  | nil s => exact OldUntouched.refl _
  | cons hrun _ ih =>
    have hfirst := (connection_oldUntouched hroot hlinks
      (hinputs _ List.mem_cons_self)).of_reaches hrun
    refine hfirst.trans (ih (hroot.grows hfirst.grows) (hlinks.grows hfirst.grows) ?_)
    exact fun input hmem => hinputs input (List.mem_cons_of_mem _ hmem)

/-- **No clobbering without consent.**  In a run of the server in which no SEND asks
for it, a file that is there when some request arrives has the same bytes after that
request, and after all later ones. -/
theorem no_clobbering {L : Lz4} {root : List UInt8} {l : Loc} {s s₁ s₂ : Sys}
    {before after : List (List UInt8)} (hroot : Canonical s.fs root l)
    (hlinks : s.fs.NoLinksBelow l) (hbefore : ∀ input ∈ before, NoOverwrite input)
    (hafter : ∀ input ∈ after, NoOverwrite input)
    (h₁ : ServerRun F L root s before s₁) (h₂ : ServerRun F L root s₁ after s₂) :
    ∀ k bs, s₁.fs.contents k = some bs → s₂.fs.contents k = some bs := by
  have hfirst := h₁.oldUntouched hroot hlinks hbefore
  have hsecond := h₂.oldUntouched (hroot.grows hfirst.grows) (hlinks.grows hfirst.grows) hafter
  exact fun k bs hk => hsecond.contents hk

/-- The same file sent twice, with other bytes the second time. -/
theorem no_clobbering_sentTwice : ∃ s₁ s₂,
    ServerRun Faults.none shortLz4 [slash] (.initial .empty) [sendCommandBytes [0x66] 0 1 1 ++
      plainStream [7]] s₁ ∧
    ServerRun Faults.none shortLz4 [slash] s₁ [sendCommandBytes [0x66] 0 1 1 ++
      plainStream [9]] s₂ ∧
    s₁.fs.contents [[0x66]] = some [7] ∧ s₂.fs.contents [[0x66]] = some [7] := by
  obtain ⟨s₁, hrun₁, hrest⟩ : ∃ s₁, serveAll shortLz4 1 [slash] (.initial .empty)
      [sendCommandBytes [0x66] 0 1 1 ++ plainStream [7]] = some s₁ ∧
      ((serveAll shortLz4 1 [slash] s₁ [sendCommandBytes [0x66] 0 1 1 ++
        plainStream [9]]).map fun _ => s₁.fs.contents [[0x66]]) = some (some [7]) :=
    Option.bind_eq_some_iff.mp (by decide +kernel)
  obtain ⟨s₂, hrun₂, hfile⟩ := Option.map_eq_some_iff.mp hrest
  have h₁ := serverRun_of_serveAll (F := Faults.none) hrun₁
  have h₂ := serverRun_of_serveAll (F := Faults.none) hrun₂
  refine ⟨s₁, s₂, h₁, h₂, hfile, ?_⟩
  refine no_clobbering (l := []) ⟨rfl, rfl, by decide⟩ ?_ (by decide) (by decide) h₁ h₂ _ _ hfile
  intro l t _
  cases l <;> simp [FS.node, nodeAt, FS.empty, Sys.initial]

end IsrTransfer
