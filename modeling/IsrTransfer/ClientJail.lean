import IsrTransfer.DownloadParts
import IsrTransfer.Posix.Lexical

/-!
# The jail of the client

A recursive download makes directories and opens files under names that the server has
chosen.  Nothing looks at the names: a name is appended to the local directory, and what
comes out is cut to 4095 bytes and used.  A name may be `..`, or have `..` between slashes;
and `isr_mkdir_recursive` reads a backslash as a slash, so for the parent of a file, and
for a directory, `..` between backslashes does as well.

What a server can do with its names depends on which names it has.  So let `N` be the
entries that it announces in any of its listings.  The client visits a local directory for
every sequence of directory names (`Visits`), and keeps to the local directory exactly if
the names are harmless wherever they can be used (`clientJail_iff`).

## Confined paths

What a path denotes is a matter of its text here (`Confined`): it ends on the way to the local
directory, or it goes on from there and does not lead up beyond it at any point.  The local file
system does not come into it; a link that the user has put into the directory is the user's.  In a
path for a file the system's separators count, in a path for a directory those of
`isr_mkdir_recursive` (`mkdirPath`).

Cutting a path can only make names shorter, or remove some, but `..` may be left of a longer
name; so the condition is about the paths that come out of `snprintf`, and not about the names.

A server may also say that the remote path is a file after all.  Then the client downloads it, to
a name that it takes from the remote path (`HarmlessNames.redirected`), and this path has been put
together from names of the server as well.

## The two directions

Harmless names keep the client inside, whatever else the server does: this is the rule for
recursive downloads with a guard on `mkdir` and on opening for writing (`HarmlessNames.jailKept`).

The other direction needs runs.  The server gets the client to any of the visits, by induction on
them, with listings of one entry each (`JailKept.visits`), and there it says what there is: a
directory, a listing with one file, or a file.  The run itself is never written down.  That a
program keeps to its guard is a statement about its operations one by one, and so the operations
can be gone through until the one that shows the path (`confined_of_download`,
`harmlessFile_of_download`).
-/

namespace IsrTransfer

open Effect Posix

variable {F : Faults} {lossy eof : Bool} {w : World}

/-! ## What is asked of the client -/

/-- Directories that are made, and files that are opened for writing, are confined. -/
def InJail (dir : List UInt8) : Guard (NetOp OsOp) World := fun _ _ op =>
  match op with
  | .sys (.mkdir path) => Confined dir path
  | .sys (.openWrite path) => Confined dir path
  | _ => True

theorem permits_inJail (dir : List UInt8) : Permits (InJail dir) :=
  ⟨fun _ _ _ => trivial, fun _ => trivial, fun _ _ _ => trivial, fun _ _ _ _ => trivial,
    fun _ _ => trivial, fun _ _ => trivial, fun _ _ => trivial, fun _ _ => trivial⟩

/-! ## What a server announces -/

/-- The entries in the listing, if there is one, are entries of `N`. -/
def Announces (N : IsrCliDirEntry → Prop) (input : List UInt8) : Prop :=
  ∀ buf, Lists input buf → ∀ es rest, (∀ e ∈ es, IsrCliDirEntry.Fits e) →
    buf = listingBytes es ++ rest → ∀ e ∈ es, N e

/-- The directories that the client can be asked for, and where they are downloaded to. -/
inductive Visits (N : IsrCliDirEntry → Prop) (remotePath dir : List UInt8) :
    (remotePath localDir : List UInt8) → Prop where
  | start : Visits N remotePath dir remotePath dir
  | entry {remote localDir : List UInt8} {e : IsrCliDirEntry} :
      Visits N remotePath dir remote localDir → N e → e.Fits → e.isDirectory ≠ 0 →
        Visits N remotePath dir (snprintfPath remote e.name isrPathMax)
          (snprintfPath localDir e.name isrPathMax)

/-- What `isr_mkdir_recursive` makes of its argument. -/
def mkdirPath (path : List UInt8) : List UInt8 := slashed (strncpy path isrPathMax)

structure HarmlessFile (dir path : List UInt8) : Prop where
  file : Confined dir path
  parent : ∀ parent, isrParentDir path isrPathMax = some parent → Confined dir (mkdirPath parent)

/-- Wherever the client comes, the directory, the files in it and the file that the server
may have in its place are harmless. -/
structure HarmlessNames (N : IsrCliDirEntry → Prop) (remotePath dir : List UInt8) : Prop where
  directory : ∀ remote localDir, Visits N remotePath dir remote localDir →
    Confined dir (mkdirPath localDir)
  file : ∀ remote localDir e, Visits N remotePath dir remote localDir → N e → e.Fits →
    e.isDirectory = 0 → HarmlessFile dir (snprintfPath localDir e.name isrPathMax)
  redirected : ∀ remote localDir, Visits N remotePath dir remote localDir →
    HarmlessFile dir (snprintfPath localDir (basename remote) isrPathMax)

/-- Whatever a server does that announces entries of `N` only, all that is made or opened
for writing is confined to the local directory. -/
def JailKept (N : IsrCliDirEntry → Prop) (remotePath dir : List UInt8) : Prop :=
  ∀ (L : Lz4) (fuel : Nat) (flags : UInt8) (blockSize depth : Nat) (F : Faults)
    (lossy eof : Bool) (w : World), Announces N w.input → ∀ q v,
    Reaches (Env.restrict (machine F lossy eof) fun u => Announces N u.input)
      (isrCliDownloadDirectory L fuel flags blockSize depth remotePath dir) w q v →
    Here (InJail dir) (fun _ _ => True) q v

/-! ## The paths of `mkdir` -/

/-- Where the whole path is confined, every `mkdir` on the way is. -/
theorem confined_of_mem_mkdirTargets {dir path t : List UInt8}
    (h : Confined dir (mkdirPath path)) (ht : t ∈ mkdirTargets path) : Confined dir t := by
  rw [mkdirTargets_copy, List.mem_append, List.mem_singleton] at ht
  rcases ht with hanc | rfl
  · obtain ⟨hne, rest, heq⟩ := mem_ancestors.mp hanc
    rw [mkdirPath, heq] at h
    exact h.of_append hne
  · exact h

/-! ## Harmless names keep the client inside -/

section Inside

variable {dir : List UInt8} {L : Lz4} {fuel : Nat} {flags : UInt8} {blockSize : Nat}

theorem mkdir_inJail {path : List UInt8} (h : Confined dir (mkdirPath path)) :
    Ensures (machine F lossy eof) (InJail dir) (isrMkdirRecursive path) (fun _ _ => True) w := by
  refine ensures_isrMkdirRecursive' (fun ps p qs s hps _ => ?_) fun _ _ _ => trivial
  refine confined_of_mem_mkdirTargets h ?_
  rw [hps]
  exact List.mem_append_right _ List.mem_cons_self

theorem downloadFile_inJail {remotePath localPath : List UInt8} (h : HarmlessFile dir localPath) :
    Ensures (machine F lossy eof) (InJail dir)
      (isrCliDownloadFile L fuel remotePath localPath flags blockSize) (fun _ _ => True) w := by
  refine ensures_isrCliDownloadFile (permits_inJail dir) ?_
  constructor
  · exact ⟨trivial, fun _ _ _ _ => trivial, fun _ _ _ _ _ _ => trivial, fun _ _ _ _ => trivial,
      fun _ _ _ _ _ _ _ _ => trivial, fun _ _ _ => trivial⟩
  · exact fun _ _ _ _ _ => trivial
  · exact fun _ _ _ _ _ _ => trivial
  · intro _ _ _ ps p qs s hps _
    unfold parentTargets at hps
    cases hparent : isrParentDir localPath isrPathMax with
    | none =>
      rw [hparent] at hps
      exact absurd hps (by simp)
    | some parent =>
      rw [hparent] at hps
      refine confined_of_mem_mkdirTargets (h.parent parent hparent) ?_
      rw [show mkdirTargets parent = ps ++ p :: qs from hps]
      exact List.mem_append_right _ List.mem_cons_self
  · intro _ _ _ s _
    refine ⟨h.file, fun _ _ _ => trivial, fun fd s' _ => ?_⟩
    exact ensures_receiveFile_outline (permits_inJail dir) (fun _ _ _ _ _ _ => trivial)
      (fun _ _ => trivial) fun _ _ _ => ⟨fun _ _ _ => trivial, fun _ => trivial⟩

variable {N : IsrCliDirEntry → Prop} {remotePath : List UInt8}

theorem HarmlessNames.directoryCases (hN : HarmlessNames N remotePath dir) :
    DirectoryCases F lossy eof (InJail dir) (fun w => Announces N w.input) L fuel flags blockSize
      fun _ => Visits N remotePath dir where
  toPermits := permits_inJail dir
  connect _ := trivial
  recv _ _ _ _ := trivial
  spin _ _ _ _ := trivial
  mkdir _ remote localDir _ hvisits := mkdir_inJail (hN.directory remote localDir hvisits)
  redirected _ remote localDir _ hvisits hw :=
    Ensures.restrict ((downloadFile_inJail (hN.redirected remote localDir hvisits)).mono
      fun _ _ _ h => h) hw
  entry := by
    intro _ remote localDir _ input es rest e hvisits hw hlists hes _ he
    have hN' : N e := hw _ hlists es rest hes rfl e he
    refine ⟨fun hdir => hvisits.entry hN' (hes e he) hdir, fun hfile v hv => ?_⟩
    have hharmless := hN.file remote localDir e hvisits hN' (hes e he) hfile
    exact Ensures.restrict ((downloadFile_inJail hharmless).mono fun _ _ _ h => h) hv

theorem HarmlessNames.jailKept {dir : List UInt8} (hN : HarmlessNames N remotePath dir) :
    JailKept N remotePath dir := fun _ _ _ _ depth _ _ _ _ hw =>
  ensures_iff_reaches.mp ((ensures_isrCliDownloadDirectory hN.directoryCases depth .start hw).mono
    fun _ _ _ => trivial)

end Inside

/-! ## Other names do not

For the converse a server is made up that brings the client to any call that it can come to. The
client keeps to its directory whatever the server sends, so in particular if the server sends
the listing with the one entry that leads to the call (`JailKept.visits`); and the call that
comes then is about a path made of that entry's name. -/

section Outside

variable {dir : List UInt8} {L : Lz4} {fuel : Nat} {flags : UInt8} {blockSize : Nat}
  {P : List UInt8 → Prop} {Q : Int → World → Prop}

/-- `isr_mkdir_recursive` comes to the whole of its path. -/
theorem confined_of_mkdirLoop (rest : List UInt8) : ∀ {done : List UInt8} {w : World}, P w.input →
    Ensures (serving P) (InJail dir) (isrMkdirRecursiveLoop done rest) Q w →
    Confined dir (done ++ rest.map fun c => if c = backslash then slash else c) := by
  induction rest with
  | nil =>
    intro done w _ h
    rw [List.map_nil, List.append_nil]
    exact h.here
  | cons c rest ih =>
    intro done w hw h
    rw [isrMkdirRecursiveLoop] at h
    split at h
    case isTrue hsep =>
      have hc : (if c = backslash then slash else c) = slash := by
        rcases hsep with rfl | rfl <;> decide
      have hstep : serving P w (.sys (.mkdir done)) (w.sys.mkdir done).1
          (w.withSys (w.sys.mkdir done).2) := ⟨⟨_, Or.inl rfl, rfl⟩, hw⟩
      have hrest := @ih (done ++ [slash]) (w.withSys (w.sys.mkdir done).2) hw (h.2 _ _ hstep)
      rw [List.append_assoc, List.singleton_append] at hrest
      rwa [List.map_cons, hc]
    case isFalse hsep =>
      rw [not_or] at hsep
      have hrest := ih hw h
      rw [List.append_assoc, List.singleton_append] at hrest
      rwa [List.map_cons, if_neg hsep.2]

/-- The server says that there is a directory. -/
theorem confined_of_download {remote localDir : List UInt8} (hinput : P (directoryInput []))
    (h : Ensures (serving P) (InJail dir)
      (isrCliDownloadDirectory L fuel flags blockSize 1 remote localDir) Q w) :
    Confined dir (mkdirPath localDir) := by
  obtain ⟨u, hrun, -, hu⟩ := @exists_afterListing L fuel flags blockSize 0 remote localDir w P []
    (by decide) hinput
  have hafter : Ensures (serving P) (InJail dir) (isrMkdirRecursive localDir >>= fun _ =>
      downloadEntries L fuel (isrCliDownloadDirectory L fuel flags blockSize 0) remote localDir
        flags blockSize [] 0) Q u := h.of_reaches hrun
  rw [ensures_bind] at hafter
  exact confined_of_mkdirLoop _ hu hafter

/-- What a server sends that has an empty file. -/
def fileInput : List UInt8 := confirmation isrRecvTypeFile 0

theorem length_fileInput : fileInput.length = sizeofRecvConfirmation := length_recvConfirmation _

theorem type_fileInput : (confirmationOf fileInput).responseType = isrRecvTypeFile := by
  rw [confirmationOf, List.take_of_length_le length_fileInput.le, fileInput, confirmation,
    ofBytes_recvConfirmation]

/-- The server says that there is a file. -/
theorem harmlessFile_of_download {remote localPath : List UInt8} (hinput : P fileInput)
    (h : Ensures (serving P) (InJail dir)
      (isrCliDownloadFile L fuel remote localPath flags blockSize) Q w) :
    HarmlessFile dir localPath := by
  have hinto := h.of_reaches (reaches_downloadInto length_fileInput.ge hinput type_fileInput)
  have hu : P ((confirmedWorld w.sys fileInput (recvCommandBytes remote flags blockSize)).sent
      [isrRecvGo]).input := hinput
  generalize (confirmedWorld _ _ _).sent _ = u at hinto hu
  cases hparent : isrParentDir localPath isrPathMax with
  | none =>
    rw [downloadInto_of_none hparent] at hinto
    refine ⟨hinto.here, fun parent h => ?_⟩
    exact absurd (hparent.symm.trans h) (by simp)
  | some parent =>
    rw [downloadInto_of_some hparent, ensures_bind] at hinto
    obtain ⟨r, s, hmkdir⟩ := @exists_isrMkdirRecursive u P hu parent
    have hopen : Ensures (serving P) (InJail dir) (receiveInto L fuel flags blockSize _ localPath
        "  Failed to receive file.\n" "  Checksum mismatch!\n") Q (u.withSys s) :=
      hinto.of_reaches hmkdir
    refine ⟨hopen.here, fun parent' h => ?_⟩
    obtain rfl := Option.some.inj (hparent.symm.trans h)
    exact confined_of_mkdirLoop _ hu hinto

variable {N : IsrCliDirEntry → Prop} {remotePath : List UInt8}

theorem announces_fileInput : Announces N fileInput := fun _ hlists =>
  absurd (type_fileInput.symm.trans hlists.type) (by decide)

/-- A listing announces its entries. -/
theorem announces_directoryInput {es : List IsrCliDirEntry}
    (hlen : (listingBytes es).length < word64)
    (hes : ∀ e ∈ es, N e ∧ e.Fits) : Announces N (directoryInput (listingBytes es)) := by
  intro buf hlists es' rest hes' hbuf e he
  have hlisting : buf = listingBytes es := by
    rw [hlists.listing, confirmationOf_directoryInput hlen, drop_directoryInput, plainStream,
      List.take_left]
  rw [hlisting, ← List.append_nil (listingBytes es)] at hbuf
  have hbegins := prefix_of_listingBytes (fun e he => (hes e he).2) hes' torn_nil hbuf
  exact (hes e (hbegins.subset he)).1

theorem announces_nil : Announces N (directoryInput []) :=
  @announces_directoryInput N [] (by decide) (by simp)

theorem announces_singleton {e : IsrCliDirEntry} (hN : N e) (he : e.Fits) :
    Announces N (directoryInput (listingBytes [e])) :=
  announces_directoryInput he.length_listingBytes (List.forall_mem_singleton.mpr ⟨hN, he⟩)

/-- The server gets the client to everything that can be visited. -/
theorem JailKept.visits (h : JailKept N remotePath dir) {remote localDir : List UInt8}
    (hvisits : Visits N remotePath dir remote localDir) : ∀ depth, ∃ w, Announces N w.input ∧
    ∃ Q, Ensures (serving (Announces N)) (InJail dir)
      (isrCliDownloadDirectory L fuel flags blockSize depth remote localDir) Q w := by
  induction hvisits with
  | start =>
    intro depth
    have hw : Announces N (Proc.start (Sys.initial .empty) fileInput).input := announces_fileInput
    exact ⟨_, hw, _, ensures_iff_reaches.mpr (h L fuel flags blockSize depth Faults.none false
      false _ hw)⟩
  | @entry remote localDir e _ hN he hdir ih =>
    intro depth
    obtain ⟨w, hw, Q, hrun⟩ := ih (depth + 1)
    obtain ⟨u, hu, f, hreach⟩ := @exists_downloadEntry L fuel flags blockSize depth remote localDir
      w _ e he (announces_singleton hN he)
    have hentry := hrun.of_reaches hreach
    rw [← Program.bind_eq, ensures_bind, downloadEntry, if_pos hdir] at hentry
    exact ⟨u, hu, _, hentry⟩

/-- A client that keeps to its directory has been given harmless names. -/
theorem JailKept.harmlessNames (h : JailKept N remotePath dir) :
    HarmlessNames N remotePath dir := by
  constructor
  · intro remote localDir hvisits
    obtain ⟨w, hw, Q, hrun⟩ := @JailKept.visits dir shortLz4 0 0 0 N remotePath h _ _ hvisits 1
    exact confined_of_download announces_nil hrun
  · intro remote localDir e hvisits hN he hfile
    obtain ⟨w, hw, Q, hrun⟩ := @JailKept.visits dir shortLz4 0 0 0 N remotePath h _ _ hvisits 1
    obtain ⟨u, hu, f, hreach⟩ := @exists_downloadEntry shortLz4 0 0 0 0 remote localDir
      w _ e he (announces_singleton hN he)
    have hentry := hrun.of_reaches hreach
    rw [← Program.bind_eq, ensures_bind, downloadEntry, if_neg (not_not.mpr hfile)] at hentry
    exact harmlessFile_of_download announces_fileInput hentry
  · intro remote localDir hvisits
    obtain ⟨w, hw, Q, hrun⟩ := @JailKept.visits dir shortLz4 0 0 0 N remotePath h _ _ hvisits 1
    obtain ⟨u, hu, hreach⟩ := @exists_redirected shortLz4 0 0 0 0 remote localDir w (Announces N) _
      length_fileInput.ge announces_fileInput type_fileInput
    exact harmlessFile_of_download announces_fileInput (hrun.of_reaches hreach)

end Outside

/-- **The jail of the client.**  Whatever a server does that announces entries of `N` only,
a recursive download makes and writes nothing outside its local directory, exactly if the
names of these entries are harmless wherever the client can come with them. -/
theorem clientJail_iff (N : IsrCliDirEntry → Prop) (remotePath dir : List UInt8) :
    JailKept N remotePath dir ↔ HarmlessNames N remotePath dir :=
  ⟨JailKept.harmlessNames, HarmlessNames.jailKept⟩

/-- A server that announces files `f` and `g/h`, and nothing else. -/
theorem clientJail_files :
    JailKept (fun e => (e.name = [0x66] ∨ e.name = [0x67, slash, 0x68]) ∧ e.isDirectory = 0)
      [0x72] [0x64] := by
  refine (clientJail_iff _ _ _).mpr ?_
  have honly : ∀ {remote localDir : List UInt8}, Visits
      (fun e => (e.name = [0x66] ∨ e.name = [0x67, slash, 0x68]) ∧ e.isDirectory = 0) [0x72] [0x64]
      remote localDir → remote = [0x72] ∧ localDir = [0x64] := by
    intro remote localDir hvisits
    cases hvisits with
    | start => exact ⟨rfl, rfl⟩
    | entry _ he _ hdir => exact absurd he.2 hdir
  constructor
  · intro remote localDir hvisits
    obtain ⟨rfl, rfl⟩ := honly hvisits
    decide +kernel
  · intro remote localDir e hvisits he _ _
    obtain ⟨rfl, rfl⟩ := honly hvisits
    rcases he.1 with hname | hname <;> rw [hname]
    · exact ⟨by decide +kernel, fun parent h => by cases h; decide +kernel⟩
    · exact ⟨by decide +kernel, fun parent h => by cases h; decide +kernel⟩
  · intro remote localDir hvisits
    obtain ⟨rfl, rfl⟩ := honly hvisits
    exact ⟨by decide +kernel, fun parent h => by cases h; decide +kernel⟩

/-- A server that announces a file `../x` gets it written beside the directory `d`. -/
theorem clientJail_escapes : ¬ JailKept (fun _ => True) [0x72] [0x64] := by
  intro h
  have hfile := h.harmlessNames.file _ _ ⟨[0x2E, 0x2E, slash, 0x78], 0, 0⟩ .start trivial
    ⟨by decide, by decide⟩ rfl
  exact absurd hfile.file (by decide +kernel)

end IsrTransfer
