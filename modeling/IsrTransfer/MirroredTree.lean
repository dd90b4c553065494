import IsrTransfer.DownloadFailures
import IsrTransfer.MkdirRecursive
import IsrTransfer.TouchedFiles
import IsrTransfer.TreePaths

/-!
# A recursive download mirrors the tree

Against a server whose tree stays as it is, `isr_cli_download_directory` makes a copy of the
tree: for every file below the remote path a file with its bytes, for every directory a
directory, apart from what is below a call that has failed by itself (`Mirrors`).

## What hinders it

It does so unless it is hindered by what it does not look at.  The result of
`isr_mkdir_recursive` is not looked at, so a directory is there only if the last call of
`mkdir` has made it or has found it (`Makes`).  The paths are cut to a buffer, and two of them
may lead to one file through links (`Apart`).  And a listing that finds no memory looks like an
empty one.

`freeMachine` has the steps of the machine that do not hinder the copying, with a server that
answers from its tree on every connection, or breaks off anywhere.  Everything is said about its
runs (`download_mirrors`).  That the conditions are needed is shown by a tree with nothing in it,
downloaded to a directory that cannot be made: the client returns 0 (`download_hindered`).

## Names from the listing, and paths

An entry of the tree is given by the names that lead to it (`entryAt`), its local path by the same
names under the local directory (`under`), and the path that the server is asked for by the names
under the remote path.  The loop of the client builds both paths one name at a time, and so the
recursion goes over to the tree of an entry: what is to be copied below an entry is what is to be
copied below the directory, with one name in front (`mirrored_cons`, `isFile_cons`), and the
conditions go over as well (`Apart.child`, `Makes.child`, `Unhindered.child`).

## One call, and the recursion

One call is shown to mirror what is below its path if the calls for the entries do
(`entries_of_reaches`): the loop makes a call for each name, what one call has mirrored stays,
since the calls that follow are for other paths (`Mirrored.touched`), and the names of the listing
are those of the entries.  The recursion does the rest, by induction on its depth
(`copies_downloadFailures`).

Which calls have failed by themselves is found out by the same program with the names of these
calls in the place of the result (`downloadFailures`).  The calls above them go on, and return -1
as well.  Nothing is said about what is below a call that has failed, and everything else has its
copy.
-/

namespace IsrTransfer

open Effect Posix

variable {F G : Faults} {lossy eof : Bool} {L : Lz4} {fuel : Nat} {flags : UInt8}
  {blockSize : Nat} {root : List UInt8} {l k : Loc} {fs : FS}
variable {remotePath localDir : List UInt8} {w v : World}

/-! ## The copy of a tree

Directories and files of the server are addressed by the names that lead to them from the
directory that is downloaded, and the local path is made of the same names.  `Mirrored` is what
is to be shown at the end, name by name; it does not change while other files are touched. -/

/-- What the names `q` lead to from `k`. -/
def entryAt (fs : FS) (k : Loc) (q : List Name) : Option Node := fs.node (q.reverse ++ k)

theorem entryAt_cons (fs : FS) (k : Loc) (n : Name) (q : List Name) :
    entryAt fs k (n :: q) = entryAt fs (n :: k) q := by
  rw [entryAt, entryAt, List.reverse_cons, List.append_assoc, List.singleton_append]

/-- Only a directory has entries. -/
theorem dir_of_entryAt {fs : FS} {k : Loc} {n : Name} {q : List Name} {nd : Node}
    (h : entryAt fs k (n :: q) = some nd) : fs.node k = some .dir := by
  refine FS.node_of_suffix (List.suffix_append (n :: q).reverse k) (fun heq => ?_) h
  have hlen := congrArg List.length heq
  simp only [List.length_append, List.length_reverse, List.length_cons] at hlen
  omega

/-- What leads to an entry leads past entries. -/
theorem entryAt_of_none {fs : FS} {k : Loc} (h : fs.node k = none) (q : List Name) :
    entryAt fs k q = none := by
  cases q with
  | nil => exact h
  | cons n q =>
    by_contra hsome
    obtain ⟨nd, hnd⟩ := Option.ne_none_iff_exists'.mp hsome
    exact absurd (h.symm.trans (dir_of_entryAt hnd)) (by simp)

/-- The names `q` lead to a regular file. -/
def IsFile (fs : FS) (k : Loc) (q : List Name) : Prop := ∃ i, entryAt fs k q = some (.file i)

/-- The entry that `q` leads to has its copy under `localDir`. -/
structure Mirrored (fs : FS) (k : Loc) (localDir : List UInt8) (s : Sys) (q : List Name) :
    Prop where
  dir : entryAt fs k q = some .dir → s.NamesDir (under localDir q)
  file : ∀ i, entryAt fs k q = some (.file i) → s.bytesAt (under localDir q) = some (fs.data i)

/-- The local paths of two files of the tree do not lead to one file. -/
def Apart (fs : FS) (k : Loc) (localDir : List UInt8) (s : Sys) : Prop :=
  ∀ q q' i, IsFile fs k q → IsFile fs k q' → s.LeadsFile (under localDir q) i →
    s.LeadsFile (under localDir q') i → q = q'

/-- The last `mkdir` for the local path of a directory finds a directory there, or makes it. -/
def Makes (fs : FS) (k : Loc) (localDir : List UInt8) : ⦃ρ : Type⦄ → World → NetOp OsOp ρ → ρ →
    Prop
  | _, w, .sys (.mkdir path), r => ∀ q, entryAt fs k q = some .dir →
      path = slashed (under localDir q) →
      w.sys.NamesDir (under localDir q) ∨ (path = under localDir q ∧ r = .made)
  | _, _, _, _ => True

/-- The local paths of files below `k`. -/
def Files (fs : FS) (k : Loc) (localDir : List UInt8) (path : List UInt8) : Prop :=
  ∃ q, IsFile fs k q ∧ path = under localDir q

section Child

variable {n : Name} {q : List Name} {s : Sys}

theorem isFile_cons : IsFile fs k (n :: q) ↔ IsFile fs (n :: k) q := by
  rw [IsFile, IsFile, entryAt_cons]

theorem mirrored_cons :
    Mirrored fs k localDir s (n :: q) ↔ Mirrored fs (n :: k) (localDir ++ slash :: n) s q := by
  constructor
  · intro h
    refine ⟨fun hdir => ?_, fun i hi => ?_⟩
    · rw [← under_cons]
      exact h.dir (by rwa [entryAt_cons])
    · rw [← under_cons]
      exact h.file i (by rwa [entryAt_cons])
  · intro h
    refine ⟨fun hdir => ?_, fun i hi => ?_⟩
    · rw [under_cons]
      exact h.dir (by rwa [← entryAt_cons])
    · rw [under_cons]
      exact h.file i (by rwa [← entryAt_cons])

theorem Apart.child (h : Apart fs k localDir s) : Apart fs (n :: k) (localDir ++ slash :: n) s := by
  intro q q' i hq hq' hl hl'
  rw [← under_cons] at hl hl'
  exact (List.cons.inj (h _ _ i (isFile_cons.mpr hq) (isFile_cons.mpr hq') hl hl')).2

theorem Makes.child {ρ : Type} {op : NetOp OsOp ρ} {r : ρ} (h : Makes fs k localDir w op r) :
    Makes fs (n :: k) (localDir ++ slash :: n) w op r := by
  cases op with
  | sys op =>
    cases op with
    | mkdir path =>
      intro q hq hpath
      rw [← under_cons] at hpath ⊢
      exact h (n :: q) (by rwa [entryAt_cons]) hpath
    | _ => exact trivial
  | _ => exact trivial

theorem Files.of_child {path : List UInt8} (h : Files fs (n :: k) (localDir ++ slash :: n) path) :
    Files fs k localDir path := by
  obtain ⟨q, hq, rfl⟩ := h
  exact ⟨n :: q, isFile_cons.mpr hq, (under_cons _ _ _).symm⟩

end Child

/-- Where nothing stands, nothing is to be copied. -/
theorem mirrored_of_none {s : Sys} {q : List Name} (h : entryAt fs k q = none) :
    Mirrored fs k localDir s q :=
  ⟨fun hdir => absurd (h.symm.trans hdir) (by simp), fun i hi => absurd (h.symm.trans hi) (by simp)⟩

/-- **A copy stays**, while other files are touched.  A directory stays one in any case, since
the file system grows. -/
theorem Mirrored.touched {X : List UInt8 → Prop} {s s' : Sys} {q : List Name}
    (h : Mirrored fs k localDir s q) (htouched : s.Touched X s') (hapart : Apart fs k localDir s')
    (hX : ∀ path, X path → ∃ q', IsFile fs k q' ∧ q' ≠ q ∧ path = under localDir q') :
    Mirrored fs k localDir s' q := by
  refine ⟨fun hdir => (h.dir hdir).of_grows htouched.grows htouched.cwd, fun i hi => ?_⟩
  have hbytes := h.file i hi
  obtain ⟨j, hj, hcontents⟩ := Option.bind_eq_some_iff.mp hbytes
  obtain ⟨i', hnode, hdata⟩ := FS.contents_eq_some.mp hcontents
  have hj' : s'.resolve (under localDir q) = some j := htouched.resolve hj
  have hnode' := htouched.grows.keep _ _ hnode
  rw [Sys.bytesAt_of_resolve hj', FS.contents_of_file hnode', ← hdata]
  rcases htouched.files j i' hnode with hsame | ⟨path, hpath, hlead⟩
  · rw [hsame]
  · obtain ⟨q', hq', hne, rfl⟩ := hX path hpath
    exact absurd (hapart q' q i' hq' ⟨i, hi⟩ hlead ⟨j, hj', hnode'⟩) hne

/-! ## Runs that are not hindered -/

/-- The steps of `E` are not hindered in copying what is below `k` to `localDir`, and the local
paths fit into the buffers. -/
structure Unhindered (E : Env (NetOp OsOp) World) (fs : FS) (k : Loc) (localDir : List UInt8) :
    Prop where
  apart : ∀ (ρ : Type) w (op : NetOp OsOp ρ) r v, E w op r v → Apart fs k localDir v.sys
  makes : ∀ (ρ : Type) w (op : NetOp OsOp ρ) r v, E w op r v → Makes fs k localDir w op r
  short : ∀ q nd, entryAt fs k q = some nd → (under localDir q).length < isrPathMax

section Runs

variable {E : Env (NetOp OsOp) World}

theorem Unhindered.child {n : Name} (h : Unhindered E fs k localDir) :
    Unhindered E fs (n :: k) (localDir ++ slash :: n) where
  apart ρ w op r v hr := (h.apart ρ w op r v hr).child
  makes ρ w op r v hr := (h.makes ρ w op r v hr).child
  short q nd hq := by
    rw [← under_cons]
    exact h.short (n :: q) nd (by rwa [entryAt_cons])

/-- What every step leads to holds at the end of a run. -/
theorem holds_of_reaches {I : World → Prop} {α : Type} {p q : Prog α}
    (hI : ∀ (ρ : Type) w (op : NetOp OsOp ρ) r v, E w op r v → I v)
    (h : Reaches E p w q v) (hw : I w) : I v := by
  have hrun : Reaches (Env.restrict E I) p w q v :=
    h.of_env fun ρ u op r u' hr => ⟨hr, hI ρ u op r u' hr⟩
  exact hrun.restrict hw

variable (hE : ∀ (ρ : Type) w (op : NetOp OsOp ρ) r v, E w op r v → machine F lossy eof w op r v)
include hE

/-- The loop of `isr_mkdir_recursive`: its last call is for the whole path. -/
theorem namesDir_of_loop {path : List UInt8} (hmake : ∀ w r v,
      E w (.sys (.mkdir (slashed path))) r v →
      w.sys.NamesDir path ∨ (slashed path = path ∧ r = .made)) (rest : List UInt8) :
    ∀ {done : List UInt8} {w v : World} {r : Int},
      done ++ rest.map (fun c => if c = backslash then slash else c) = slashed path →
      Reaches E (isrMkdirRecursiveLoop done rest) w (.ret r) v → v.sys.NamesDir path := by
  induction rest with
  | nil =>
    intro done w v r hdone h
    obtain rfl : done = slashed path := by rwa [List.map_nil, List.append_nil] at hdone
    rw [isrMkdirRecursiveLoop] at h
    obtain ⟨res, u, hcall, hret⟩ := Reaches.of_bind h
    obtain rfl : u = v := by
      cases res <;> (cases hret; rfl)
    cases hcall with
    | step hstep hrest =>
      cases hrest
      obtain ⟨s', hmkdir, rfl⟩ := hE _ _ _ _ _ hstep
      rcases hmake _ _ _ hstep with hdir | ⟨heq, rfl⟩
      · have hdirs := MkdirStep.dirsAdded hmkdir
        exact hdir.of_grows hdirs.fs.grows hdirs.cwd
      · rw [heq] at hmkdir
        rcases hmkdir with hmade | ⟨-, hfailed, -⟩
        · obtain ⟨j, hj, -, hnode⟩ := Sys.mkdir_made hmade.symm
          exact ⟨j, hj, by rw [Proc.withSys_sys, hnode, if_pos rfl]⟩
        · exact absurd hfailed (by decide)
  | cons c rest ih =>
    intro done w v r hdone h
    rw [isrMkdirRecursiveLoop] at h
    rw [List.map_cons, ← List.singleton_append, ← List.append_assoc] at hdone
    split at h
    case isTrue hsep =>
      obtain ⟨_, u, -, hrest⟩ := Reaches.of_bind h
      refine ih ?_ hrest
      have hc : (if c = backslash then slash else c) = slash := by
        rcases hsep with rfl | rfl <;> decide
      rwa [hc] at hdone
    case isFalse hsep =>
      rw [not_or] at hsep
      rw [if_neg hsep.2] at hdone
      exact ih hdone h

/-- After a run of `isr_mkdir_recursive` for a directory of the tree, it is there. -/
theorem Unhindered.namesDir (hU : Unhindered E fs k localDir) (hdir : fs.node k = some .dir)
    {r : Int} (h : Reaches E (isrMkdirRecursive localDir) w (.ret r) v) :
    v.sys.NamesDir localDir := by
  have hshort := hU.short [] .dir hdir
  rw [under_nil] at hshort
  unfold isrMkdirRecursive at h
  simp only [strncpy_eq hshort] at h
  refine namesDir_of_loop hE (fun w r v hstep => ?_) _ rfl h
  have hmakes := hU.makes _ w _ r v hstep [] hdir
  rw [under_nil] at hmakes
  exact hmakes rfl

end Runs

/-! ## One call -/

section Call

variable {E : Env (NetOp OsOp) World}
variable (hE : ∀ (ρ : Type) w (op : NetOp OsOp ρ) r v, E w op r v → machine F lossy eof w op r v)
  (hserved : ∀ (ρ : Type) w (op : NetOp OsOp ρ) r v, E w op r v → ServedBy G L root fs v)
  (htree : ServedTree root l fs) (hblocks : BlocksOk L flags blockSize)
include hE hserved htree hblocks

/-- **The download of one file**: it only touches the copy of the file, and if it returns `0`
the copy is there. -/
theorem file_of_reaches {n : Name} {nd : Node} {r : Int} (hU : Unhindered E fs k localDir)
    (hremote : (0 : UInt8) ∉ remotePath) (hlocal : (0 : UInt8) ∉ localDir)
    (hplace : placeOf l (requested remotePath) = k) (hn : fs.node (n :: k) = some nd)
    (hw : ServedBy G L root fs w)
    (h : Reaches E (isrCliDownloadFile L fuel (snprintfPath remotePath n isrPathMax)
      (snprintfPath localDir n isrPathMax) flags blockSize) w (.ret r) v) :
    w.sys.Touched (Files fs (n :: k) (localDir ++ slash :: n)) v.sys ∧
      (r = 0 → ∀ q, Mirrored fs (n :: k) (localDir ++ slash :: n) v.sys q) := by
  have hvalid := FS.validName_of_node hn
  have hshort := hU.short [n] nd hn
  rw [under_cons, under_nil] at hshort
  have hlocalPath := snprintfPath_of_short hlocal hvalid.2.2.2.2.1 hshort
  rw [hlocalPath] at h
  have hv : ServedBy G L root fs v := holds_of_reaches hserved h hw
  -- a file that has been confirmed is the one that stands there
  have hfile : FileConfirmed (recvCommandBytes (snprintfPath remotePath n isrPathMax) flags
      blockSize) v → ∃ i, fs.node (n :: k) = some (.file i) ∧ (fs.data i).length < word64 ∧
        (confirmationOf v.input).effectiveLength = (fs.data i).length ∧
        SentOf L flags blockSize (fs.data i) (v.input.drop sizeofRecvConfirmation) := by
    intro hconfirmed
    obtain ⟨hfits, content, hcontents, hlen, heff, hsent⟩ := hv.file htree
      (notMem_snprintfPath _ _ _) hblocks hconfirmed.asked hconfirmed.length hconfirmed.type
    obtain ⟨hsame, hreq⟩ := uncut_of_fits hremote hvalid hfits
    rw [hreq, placeOf_entry hvalid, ← hsame, hplace] at hcontents
    obtain ⟨i, hi, rfl⟩ := FS.contents_eq_some.mp hcontents
    exact ⟨i, hi, hlen, heff, hsent⟩
  have hend : ∀ {P : List UInt8 → Prop}, (∀ (u : World) (fd : Fd),
      u.rx = v.input.drop sizeofRecvConfirmation → Ensures (machine F lossy eof) Anything
        (receiveFile L fuel fd flags blockSize (confirmationOf v.input).effectiveLength)
        (fun r x => ∃ out k, x = taken u fd out k ∧ (¬ Failed r → P out)) u) →
      DownloadEnd P v.input (recvCommandBytes (snprintfPath remotePath n isrPathMax) flags
        blockSize) (localDir ++ slash :: n) w.sys r v :=
    fun hdata => (ensures_isrCliDownloadFile_end hdata).of_reaches (h.of_env hE)
  have hany := hend (P := fun _ => True) fun u fd _ =>
    ensures_receiveFile_outline permits_anything (fun _ _ _ _ _ _ => trivial)
      (fun _ _ => trivial) fun _ out k => ⟨out, k, rfl, fun _ => trivial⟩
  constructor
  · refine hany.touched.mono fun path hpath => ?_
    obtain ⟨rfl, hconfirmed⟩ := hpath
    obtain ⟨i, hi, -⟩ := hfile hconfirmed
    exact ⟨[], ⟨i, hi⟩, (under_nil _).symm⟩
  · intro hr q
    obtain ⟨i, hi, hlen, heff, hsent⟩ := hfile (hany.confirmed hr)
    cases q with
    | nil =>
      refine ⟨fun hdir => ?_, fun j hj => ?_⟩
      · exact absurd (hi.symm.trans hdir) (by simp)
      · obtain rfl : i = j := Node.file.inj (Option.some.inj (hi.symm.trans hj))
        have hall := hend (P := fun out => out = fs.data i) fun u fd hrx => by
          rw [heff]
          rw [← hrx] at hsent
          exact ensures_receiveFile_sent hblocks hlen hsent
        obtain ⟨data, rfl, hbytes⟩ := hall.received hr rfl
        rw [under_nil]
        exact hbytes
    | cons m q =>
      -- nothing stands below a file
      refine mirrored_of_none ?_
      by_contra hsome
      obtain ⟨nd', hnd'⟩ := Option.ne_none_iff_exists'.mp hsome
      exact absurd (hi.symm.trans (dir_of_entryAt hnd')) (by simp)

/-! ## The loop over the entries

`Copies` is the statement of the induction, for a recursive call with one level less.  The loop
has the entries one after the other, and those that are done stay done since the others touch
other files. -/

omit hE hserved htree hblocks in
/-- What is to be shown of `isr_cli_download_directory`, or of its recursive calls.  The
server may have been asked for a path that does not fit; then nothing is known about it. -/
def Copies (E : Env (NetOp OsOp) World) (G : Faults) (L : Lz4) (root : List UInt8) (l : Loc)
    (fs : FS) (download : List UInt8 → List UInt8 → Prog (List (List Name))) : Prop :=
  ∀ remotePath localDir k w v failed, Unhindered E fs k localDir → (0 : UInt8) ∉ remotePath →
    (0 : UInt8) ∉ localDir → ((root ++ slash :: requested remotePath).length < pathMax →
      placeOf l (requested remotePath) = k ∧ ∀ i, fs.node k ≠ some (.file i)) →
    ServedBy G L root fs w → Apart fs k localDir w.sys →
    Reaches E (download remotePath localDir) w (.ret failed) v →
    w.sys.Touched (Files fs k localDir) v.sys ∧
      ∀ q, (∀ d ∈ failed, ¬ d <+: q) → Mirrored fs k localDir v.sys q

variable {download : List UInt8 → List UInt8 → Prog (List (List Name))}

/-- **One entry.**  Only the copies of what is below the entry are touched, and everything
below it is mirrored, except below a call that has failed. -/
theorem entry_of_reaches (hdown : Copies E G L root l fs download) {e : IsrCliDirEntry}
    {nd : Node} {failed : List (List Name)} (hU : Unhindered E fs k localDir)
    (hremote : (0 : UInt8) ∉ remotePath) (hlocal : (0 : UInt8) ∉ localDir)
    (hplace : placeOf l (requested remotePath) = k) (hnode : fs.node (e.name :: k) = some nd)
    (hdir : e.isDirectory ≠ 0 →
      (root ++ slash :: (requested remotePath ++ slash :: e.name)).length < pathMax →
      fs.node (e.name :: k) = some .dir)
    (hw : ServedBy G L root fs w) (hapart : Apart fs k localDir w.sys)
    (h : Reaches E (entryFailures L fuel flags blockSize download remotePath localDir e) w
      (.ret failed) v) :
    w.sys.Touched (Files fs (e.name :: k) (localDir ++ slash :: e.name)) v.sys ∧
      ∀ q, (∀ d ∈ failed, ¬ d <+: e.name :: q) → Mirrored fs k localDir v.sys (e.name :: q) := by
  have hvalid := FS.validName_of_node hnode
  have hnoted : ∀ {u v : World} {ret x : Int} {format : String} {path : List UInt8},
      Reaches E (noteFailure ret format path 0) u (.ret x) v →
      u.sys.Touched (fun _ => False) v.sys := by
    intro u v ret x format path hrun
    exact (ensures_noteFailure_touched.of_reaches (hrun.of_env hE)).1
  have hstays : ∀ {u v : World} {q : List Name}, u.sys.Touched (fun _ => False) v.sys →
      Apart fs k localDir v.sys → Mirrored fs k localDir u.sys (e.name :: q) →
      Mirrored fs k localDir v.sys (e.name :: q) :=
    fun ht ha hm => hm.touched ht ha fun _ hfalse => hfalse.elim
  have hapart' : Apart fs k localDir v.sys :=
    holds_of_reaches (I := fun u => Apart fs k localDir u.sys) hU.apart h hapart
  unfold entryFailures at h
  split at h
  case isTrue hflag =>
    obtain ⟨failed', u, hcall, hrest⟩ := Reaches.of_bind h
    obtain ⟨_, u', hnote, hret⟩ := Reaches.of_bind hrest
    cases hret
    have hlocalPath : snprintfPath localDir e.name isrPathMax = localDir ++ slash :: e.name := by
      have hshort := hU.short [e.name] nd hnode
      rw [under_cons, under_nil] at hshort
      exact snprintfPath_of_short hlocal hvalid.2.2.2.2.1 hshort
    have hlocal' : (0 : UInt8) ∉ localDir ++ slash :: e.name := by
      rw [← hlocalPath]
      exact notMem_snprintfPath _ _ _
    rw [hlocalPath] at hcall
    obtain ⟨htouched, hmirrored⟩ := hdown _ _ (e.name :: k) _ _ _ hU.child
      (notMem_snprintfPath _ _ _) hlocal' (fun hfits => by
        obtain ⟨hsame, hreq⟩ := uncut_of_fits hremote hvalid hfits
        rw [hreq] at hfits ⊢
        rw [hsame] at hplace hdir
        rw [placeOf_entry hvalid, hplace, hdir hflag hfits]
        exact ⟨rfl, fun i => by simp⟩) hw hapart.child hcall
    refine ⟨htouched.trans ((hnoted hnote).mono fun _ hfalse => hfalse.elim), fun q hq => ?_⟩
    refine hstays (hnoted hnote) hapart' (mirrored_cons.mpr (hmirrored q fun d hd hpre => ?_))
    exact hq _ (List.mem_map_of_mem hd) (List.cons_prefix_cons.mpr ⟨rfl, hpre⟩)
  case isFalse hflag =>
    obtain ⟨ret, u, hcall, hrest⟩ := Reaches.of_bind h
    obtain ⟨_, u', hnote, hret⟩ := Reaches.of_bind hrest
    cases hret
    obtain ⟨htouched, hmirrored⟩ := file_of_reaches hE hserved htree hblocks hU hremote hlocal
      hplace hnode hw hcall
    refine ⟨htouched.trans ((hnoted hnote).mono fun _ hfalse => hfalse.elim), fun q hq => ?_⟩
    by_cases hok : ret = 0
    · exact hstays (hnoted hnote) hapart' (mirrored_cons.mpr (hmirrored hok q))
    · rw [if_neg hok] at hq
      exact absurd (List.cons_prefix_cons.mpr ⟨rfl, List.nil_prefix⟩)
        (hq [e.name] List.mem_cons_self)

/-- **The loop over the entries**, by induction on the list.  What has been mirrored for the
first entry stays, because the others have other names. -/
theorem entries_of_reaches (hdown : Copies E G L root l fs download)
    (hU : Unhindered E fs k localDir) (hremote : (0 : UInt8) ∉ remotePath)
    (hlocal : (0 : UInt8) ∉ localDir) (hplace : placeOf l (requested remotePath) = k)
    (es : List IsrCliDirEntry) : (∀ e ∈ es, ∃ nd, fs.node (e.name :: k) = some nd) →
    (∀ e ∈ es, e.isDirectory ≠ 0 →
      (root ++ slash :: (requested remotePath ++ slash :: e.name)).length < pathMax →
      fs.node (e.name :: k) = some .dir) →
    (es.map IsrCliDirEntry.name).Nodup → ∀ {w v : World} {failed : List (List Name)},
    ServedBy G L root fs w → Apart fs k localDir w.sys →
    Reaches E (listingFailures L fuel flags blockSize download remotePath localDir es) w
      (.ret failed) v →
    w.sys.Touched (fun path => ∃ e ∈ es, Files fs (e.name :: k) (localDir ++ slash :: e.name) path)
        v.sys ∧
      ∀ e ∈ es, ∀ q, (∀ d ∈ failed, ¬ d <+: e.name :: q) →
        Mirrored fs k localDir v.sys (e.name :: q) := by
  induction es with
  | nil =>
    intro _ _ _ w v failed _ _ h
    cases h
    exact ⟨Sys.Touched.refl _ _, fun e he => absurd he List.not_mem_nil⟩
  | cons e es ih =>
    intro hnode hdir hnodup w v failed hw hapart h
    obtain ⟨⟨nd, hnd⟩, hnode⟩ := List.forall_mem_cons.mp hnode
    obtain ⟨hedir, hdir⟩ := List.forall_mem_cons.mp hdir
    rw [List.map_cons, List.nodup_cons] at hnodup
    rw [listingFailures] at h
    obtain ⟨failed₁, u, hentry, hrest⟩ := Reaches.of_bind h
    obtain ⟨failed', u', hes, hret⟩ := Reaches.of_bind hrest
    cases hret
    obtain ⟨htouched, hmirrored⟩ := entry_of_reaches hE hserved htree hblocks hdown hU hremote
      hlocal hplace hnd hedir hw hapart hentry
    have hu : ServedBy G L root fs u := holds_of_reaches hserved hentry hw
    have hapartu : Apart fs k localDir u.sys :=
      holds_of_reaches (I := fun u => Apart fs k localDir u.sys) hU.apart hentry hapart
    have hapartv : Apart fs k localDir v.sys :=
      holds_of_reaches (I := fun u => Apart fs k localDir u.sys) hU.apart hes hapartu
    obtain ⟨htouched', hmirrored'⟩ := ih hnode hdir hnodup.2 hu hapartu hes
    constructor
    · refine (htouched.mono fun path hpath => ?_).trans (htouched'.mono fun path hpath => ?_)
      · exact ⟨e, List.mem_cons_self, hpath⟩
      · obtain ⟨e', he', hpath⟩ := hpath
        exact ⟨e', List.mem_cons_of_mem _ he', hpath⟩
    · refine List.forall_mem_cons.mpr ⟨fun q hq => ?_, fun e' he' q hq => ?_⟩
      · -- the calls that follow are for other names
        have hm := hmirrored q fun d hd => hq d (List.mem_append_left _ hd)
        refine hm.touched htouched' hapartv fun path hpath => ?_
        obtain ⟨e', he', q', hq', rfl⟩ := hpath
        refine ⟨e'.name :: q', isFile_cons.mpr hq', fun heq => ?_, (under_cons _ _ _).symm⟩
        refine hnodup.1 ?_
        rw [← (List.cons.inj heq).1]
        exact List.mem_map_of_mem he'
      · exact hmirrored' e' he' q fun d hd => hq d (List.mem_append_right _ hd)

/-! ## The recursion

The listing that the client has received is that of the directory at `k`, as the server has it.
Every entry of the directory is in it, so the loop reaches everything that the tree has. -/

omit hE hserved htree hblocks in
/-- Before the loop comes a call of `isr_mkdir_recursive`. -/
theorem mkdir_of_fetchEntries {conf : IsrRecvConfirmation} {entries : List IsrCliDirEntry}
    (h : Reaches E (fetchEntries localDir conf) w (.ret (some entries)) v) :
    ∃ u r, Reaches E (isrMkdirRecursive localDir) u (.ret r) v := by
  unfold fetchEntries at h
  obtain ⟨go, u₁, -, h⟩ := Reaches.of_bind h
  split at h
  · obtain ⟨_, _, -, h⟩ := Reaches.of_bind h
    cases h
  obtain ⟨listing, u₂, -, h⟩ := Reaches.of_bind h
  obtain ⟨_, u₃, -, h⟩ := Reaches.of_bind h
  cases listing with
  | none => cases h
  | some buf =>
    obtain ⟨parsed, u₄, -, h⟩ := Reaches.of_bind h
    unfold entriesInto at h
    split at h
    · obtain ⟨_, _, -, h⟩ := Reaches.of_bind h
      cases h
    · obtain ⟨r, u, hmkdir, h⟩ := Reaches.of_bind h
      cases h
      exact ⟨u₄, r, hmkdir⟩

omit hE hserved htree hblocks in
/-- What is confirmed that is neither a file nor a directory makes the call fail. -/
theorem ensures_afterConfirmation_other {depth : Nat} {conf : IsrRecvConfirmation}
    (hfile : conf.responseType ≠ isrRecvTypeFile)
    (hdir : conf.responseType ≠ isrRecvTypeDirectory) :
    Ensures (machine F lossy eof) Anything
      (afterConfirmation L fuel flags blockSize depth remotePath localDir conf)
      (fun r v => r = -1 ∧ Complains w v) w := by
  unfold afterConfirmation
  split
  · exact ensures_complainClose permits_anything (by decide) fun _ hv => ⟨rfl, hv⟩
  split
  · exact ensures_complainClose permits_anything (by decide) fun _ hv => ⟨rfl, hv⟩
  exact ensures_complainClose permits_anything (by decide) fun _ hv => ⟨rfl, hv⟩

/-- **The recursion**, by induction on the depth.  The listing is read as the entries of the
directory; then the loop does the rest. -/
theorem copies_downloadFailures (hF : F.alloc = false) (depth : Nat) :
    Copies E G L root l fs (downloadFailures L fuel flags blockSize depth) := by
  induction depth with
  | zero =>
    intro remotePath localDir k w v failed _ _ _ _ _ _ h
    cases h with
    | step hstep =>
      obtain ⟨_, hspin, -⟩ := hE _ _ _ _ _ hstep
      exact hspin.elim
  | succ depth ih =>
    intro remotePath localDir k w v failed hU hremote hlocal hplace hw hapart h
    rw [downloadFailures] at h
    obtain ⟨conf, u, hconnect, h⟩ := Reaches.of_bind h
    obtain ⟨htouched, hconf⟩ := (ensures_recvConnect_end (X := Files fs k localDir)).of_reaches
      (hconnect.of_env hE)
    have hall : ∀ {s : Sys}, ∀ q, (∀ d ∈ [([] : List Name)], ¬ d <+: q) →
        Mirrored fs k localDir s q :=
      fun q hq => absurd List.nil_prefix (hq [] List.mem_cons_self)
    cases conf with
    | none =>
      cases h
      exact ⟨htouched, hall⟩
    | some conf =>
      obtain ⟨input, hlen, rfl, rfl⟩ := hconf conf rfl
      have hu := holds_of_reaches hserved hconnect hw
      simp only at h
      split at h
      case isTrue hdir =>
        obtain ⟨entries, u', hfetch, h⟩ := Reaches.of_bind h
        have hu' := holds_of_reaches hserved hfetch hu
        have htouched' := (ensures_fetchEntries_touched htouched).of_reaches (hfetch.of_env hE)
        cases entries with
        | none =>
          cases h
          exact ⟨htouched', hall⟩
        | some entries =>
          have hfetched := (ensures_fetchEntries permits_anything (fun _ _ _ _ => trivial)
            (fun v => (ensures_isrMkdirRecursive' (fun _ _ _ _ _ _ => trivial)
              fun _ _ _ => trivial : Ensures (machine F lossy eof) Anything
                (isrMkdirRecursive localDir) (fun _ _ => True) v)) hdir).of_reaches
            (hfetch.of_env hE)
          obtain ⟨es, rest, hlists, hes, hrest, heq⟩ := hfetched.listed entries rfl
          obtain rfl : entries = es := heq.resolve_right fun h => by simp [hF] at h
          obtain ⟨hfits, hentries⟩ := hu.listing htree hremote hblocks List.prefix_rfl hlists hes
            hrest
          obtain ⟨rfl, -⟩ := hplace hfits
          obtain ⟨x, r, hmkdir⟩ := mkdir_of_fetchEntries hfetch
          have hnames := hU.namesDir hE hentries.dir hmkdir
          have hapart' : Apart fs (placeOf l (requested remotePath)) localDir u'.sys :=
            holds_of_reaches (I := fun u => Apart fs _ localDir u.sys) hU.apart hfetch
              (holds_of_reaches (I := fun u => Apart fs _ localDir u.sys) hU.apart hconnect hapart)
          obtain ⟨htouched'', hmirrored⟩ := entries_of_reaches hE hserved htree hblocks ih hU
            hremote hlocal rfl entries (fun e he => FS.mem_children.mp
              (hentries.names.mem_iff.mp (List.mem_map_of_mem he))) hentries.dirs
            (hentries.names.nodup_iff.mpr (FS.nodup_children _ _)) hu' hapart' h
          constructor
          · refine htouched'.trans (htouched''.mono fun path hpath => ?_)
            obtain ⟨e, -, hpath⟩ := hpath
            exact hpath.of_child
          · intro q hq
            cases q with
            | nil =>
              refine ⟨fun _ => ?_, fun i hi => ?_⟩
              · rw [under_nil]
                exact hnames.of_grows htouched''.grows htouched''.cwd
              · exact absurd (hentries.dir.symm.trans hi) (by simp)
            | cons n q =>
              cases hnode : fs.node (n :: placeOf l (requested remotePath)) with
              | none =>
                refine mirrored_of_none ?_
                rw [entryAt_cons]
                exact entryAt_of_none hnode q
              | some nd =>
                obtain ⟨e, he, rfl⟩ := List.mem_map.mp
                  (hentries.names.mem_iff.mpr (FS.mem_children.mpr ⟨nd, hnode⟩))
                exact hmirrored e he q hq
      case isFalse hdir =>
        obtain ⟨ret, u', hafter, h⟩ := Reaches.of_bind h
        cases h
        have hfile : (confirmationOf input).responseType ≠ isrRecvTypeFile := by
          intro htype
          obtain ⟨hfits, content, hcontents, -⟩ := hu.file htree hremote hblocks List.prefix_rfl
            hlen htype
          obtain ⟨rfl, hno⟩ := hplace hfits
          obtain ⟨i, hi, -⟩ := FS.contents_eq_some.mp hcontents
          exact hno i hi
        obtain ⟨rfl, hcomplains⟩ := (ensures_afterConfirmation_other hfile hdir).of_reaches
          (hafter.of_env hE)
        exact ⟨htouched.complains hcomplains, hall⟩

end Call

/-! ## The promise -/

/-- Everything is as in `machine`, and every connection is to a server with the files `fs`. -/
abbrev servedMachine (F : Faults) (lossy eof : Bool) (G : Faults) (L : Lz4) (root : List UInt8)
    (fs : FS) : Env (NetOp OsOp) World :=
  Env.restrict (machine F lossy eof) (ServedBy G L root fs)

/-- The same, as long as nothing hinders that what is below `k` is copied to `localDir`. -/
def freeMachine (F : Faults) (lossy eof : Bool) (G : Faults) (L : Lz4) (root : List UInt8)
    (fs : FS) (k : Loc) (localDir : List UInt8) : Env (NetOp OsOp) World :=
  fun _ w op r v => servedMachine F lossy eof G L root fs w op r v ∧ Apart fs k localDir v.sys ∧
    Makes fs k localDir w op r

/-- What is promised of a recursive download.  If no call fails by itself, it returns `0`, and
everything below `k` has its copy; if some do, it returns `-1`, and everything that is not
below one of these has.  No other file is touched. -/
def Mirrors (E : Env (NetOp OsOp) World) (L : Lz4) (flags : UInt8) (blockSize : Nat)
    (remotePath localDir : List UInt8) (fs : FS) (k : Loc) (s : Sys) : Prop :=
  ∀ fuel depth r v, Reaches E
    (isrCliDownloadDirectory L fuel flags blockSize depth remotePath localDir) (Proc.start s [])
    (.ret r) v →
  ∃ failed, Reaches E (downloadFailures L fuel flags blockSize depth remotePath localDir)
      (Proc.start s []) (.ret failed) v ∧
    r = resultOf 0 failed ∧ s.Touched (Files fs k localDir) v.sys ∧
    ∀ q, (∀ d ∈ failed, ¬ d <+: q) → Mirrored fs k localDir v.sys q

section Free

variable {s : Sys} (htree : ServedTree root l fs) (hblocks : BlocksOk L flags blockSize)
  (hF : F.alloc = false) (hremote : (0 : UInt8) ∉ remotePath) (hlocal : (0 : UInt8) ∉ localDir)
  (hplace : placeOf l (requested remotePath) = k) (hfile : ∀ i, fs.node k ≠ some (.file i))
  (hshort : ∀ q nd, entryAt fs k q = some nd → (under localDir q).length < isrPathMax)
  (hapart : Apart fs k localDir s)
include htree hblocks hF hremote hlocal hplace hfile hshort hapart

/-- The calls that fail are all that is missing, where nothing hinders the download. -/
theorem copies_of_free {depth : Nat} {failed : List (List Name)}
    (h : Reaches (freeMachine F lossy eof G L root fs k localDir)
      (downloadFailures L fuel flags blockSize depth remotePath localDir) (Proc.start s [])
      (.ret failed) v) :
    s.Touched (Files fs k localDir) v.sys ∧
      ∀ q, (∀ d ∈ failed, ¬ d <+: q) → Mirrored fs k localDir v.sys q := by
  have hE : ∀ (ρ : Type) w (op : NetOp OsOp ρ) r v,
      freeMachine F lossy eof G L root fs k localDir w op r v → machine F lossy eof w op r v :=
    fun _ _ _ _ _ hr => hr.1.1
  have hU : Unhindered (freeMachine F lossy eof G L root fs k localDir) fs k localDir :=
    ⟨fun _ _ _ _ _ hr => hr.2.1, fun _ _ _ _ _ hr => hr.2.2, hshort⟩
  exact copies_downloadFailures hE (fun _ _ _ _ _ hr => hr.1.2) htree hblocks hF depth _ _ k _ _ _
    hU hremote hlocal (fun _ => ⟨hplace, hfile⟩) (fun htx => absurd rfl htx) hapart h

end Free

/-! ## A download -/

theorem node_threeBytes {k : Loc} {nd : Node} (h : threeBytes.fs.node k = some nd) :
    k = [] ∧ nd = .dir ∨ k = [[0x66]] ∧ nd = .file 0 := by
  cases k with
  | nil => exact Or.inl ⟨rfl, (Option.some.inj h).symm⟩
  | cons n k =>
    have hentries : threeBytes.fs.entries = [([[0x66]], .file 0)] := by decide
    have hmem := FS.mem_of_node h
    rw [hentries, List.mem_singleton] at hmem
    obtain ⟨hk, hnd⟩ := Prod.mk.inj hmem
    exact Or.inr ⟨hk, hnd⟩

theorem entryAt_threeBytes {q : List Name} {nd : Node}
    (h : entryAt threeBytes.fs [] q = some nd) :
    q = [] ∧ nd = .dir ∨ q = [[0x66]] ∧ nd = .file 0 := by
  have hnode := node_threeBytes h
  rwa [List.append_nil, List.reverse_eq_nil_iff, List.reverse_eq_iff] at hnode

theorem servedTree_threeBytes : ServedTree [slash] [] threeBytes.fs := by
  constructor
  · exact ⟨rfl, rfl, by decide⟩
  · intro k t _ h
    rcases node_threeBytes h with ⟨-, h⟩ | ⟨-, h⟩ <;> exact absurd h (by simp)
  · intro k content _ h
    obtain ⟨i, hi, rfl⟩ := FS.contents_eq_some.mp h
    rcases node_threeBytes hi with ⟨-, h⟩ | ⟨-, h⟩
    · exact absurd h (by simp)
    · obtain rfl := Node.file.inj h
      decide
  · intro k _
    have hle : (threeBytes.fs.children k).length ≤ threeBytes.fs.entries.length :=
      List.length_filterMap_le _ _
    exact hle.trans_lt (by decide)

theorem apart_threeBytes (localDir : List UInt8) (s : Sys) :
    Apart threeBytes.fs [] localDir s := by
  rintro q q' i ⟨j, hj⟩ ⟨j', hj'⟩ - -
  rcases entryAt_threeBytes hj with ⟨-, h⟩ | ⟨rfl, -⟩
  · exact absurd h (by simp)
  · rcases entryAt_threeBytes hj' with ⟨-, h⟩ | ⟨rfl, -⟩
    · exact absurd h (by simp)
    · rfl

/-- The state is one on a connection that is served so. -/
def onServed (requests : List (List UInt8 × List UInt8)) (w : World) : Bool :=
  w.tx = [] || requests.any fun p => w.tx.isPrefixOf p.1 && w.input = p.2

theorem servedBy_of_onServed {requests : List (List UInt8 × List UInt8)} {t : Sys}
    (ht : t.script = none)
    (hserved : ∀ p ∈ requests, (execute (fun _ w op => machineAnswer [] w op)
      (serveConnection L 20 [slash]) (Proc.start t p.1)).map (fun a => a.2.tx) = some p.2)
    (h : onServed requests w = true) : ServedBy Faults.none L [slash] t.fs w := by
  rcases Bool.or_eq_true_iff.mp h with hnil | hany
  · exact fun hne => absurd (of_decide_eq_true hnil) hne
  · obtain ⟨p, hp, hboth⟩ := List.any_eq_true.mp hany
    obtain ⟨hpre, hin⟩ := Bool.and_eq_true_iff.mp hboth
    obtain ⟨rest, hrest⟩ := List.isPrefixOf_iff_prefix.mp hpre
    obtain ⟨r, v, hrun, htx⟩ := reaches_execute (F := Faults.none) (b := false) (hserved p hp)
    rw [← hrest] at hrun
    exact fun _ => ⟨20, t, rest, r, v, rfl, ht, hrun, htx.trans (of_decide_eq_true hin).symm⟩

/-- What the client sends to a server with the file `/f`, and gets. -/
def fRequests (blockSize : Nat) : List (List UInt8 × List UInt8) :=
  [(recvCommandBytes dot 0 blockSize ++ [isrRecvGo],
    confirmation isrRecvTypeDirectory 12 ++ plainStream (listingBytes [⟨[0x66], 3, 0⟩])),
   (recvCommandBytes (dot ++ slash :: [0x66]) 0 blockSize ++ [isrRecvGo],
    confirmation isrRecvTypeFile 3 ++ plainStream [1, 2, 3])]

/-- `mkdir` finds a directory, or makes it. -/
def findsOrMakes : ⦃ρ : Type⦄ → World → NetOp OsOp ρ → ρ → Bool
  | _, w, .sys (.mkdir path), r =>
    r = .made || (w.sys.lead path).any fun j => w.sys.fs.node j = some .dir
  | _, _, _, _ => true

/-- The answers to the client: the listing comes first, then the file. -/
def fAnswer (blockSize : Nat) ⦃ρ : Type⦄ (w : World) (op : NetOp OsOp ρ) : Option (ρ × World) :=
  let down := if w.sys.fs.node [[0x78]] = none then (fRequests blockSize).head?.map Prod.snd
    else (fRequests blockSize).getLast?.map Prod.snd
  (machineAnswer (down.getD []) w op).filter fun a =>
    onServed (fRequests blockSize) a.2 && findsOrMakes w op a.1

theorem freeMachine_of_fAnswer {ρ : Type} {op : NetOp OsOp ρ} {r : ρ}
    (hserved : ∀ p ∈ fRequests blockSize, (execute (fun _ w op => machineAnswer [] w op)
      (serveConnection L 20 [slash]) (Proc.start threeBytes p.1)).map (fun a => a.2.tx) =
        some p.2)
    (h : fAnswer blockSize w op = some (r, v)) :
    freeMachine Faults.none false true Faults.none L [slash] threeBytes.fs [] [0x78] w op r v := by
  obtain ⟨hanswer, hcheck⟩ := Option.filter_eq_some_iff.mp h
  obtain ⟨honServed, hmakes⟩ := Bool.and_eq_true_iff.mp hcheck
  refine ⟨⟨machine_of_answer hanswer, ?_⟩, apart_threeBytes _ _, ?_⟩
  · exact servedBy_of_onServed (t := threeBytes) rfl hserved honServed
  · cases op with
    | sys op =>
      cases op with
      | mkdir path =>
        intro q hq hpath
        rcases entryAt_threeBytes hq with ⟨rfl, -⟩ | ⟨-, hfile⟩
        · obtain rfl : path = [0x78] := hpath
          rcases Bool.or_eq_true_iff.mp hmakes with hmade | hthere
          · exact Or.inr ⟨rfl, of_decide_eq_true hmade⟩
          · cases hlead : w.sys.lead [0x78] with
            | none =>
              rw [hlead] at hthere
              exact absurd hthere (by simp)
            | some j =>
              rw [hlead, Option.any_some] at hthere
              exact Or.inl ⟨j, hlead, of_decide_eq_true hthere⟩
        · exact absurd hfile (by simp)
      | _ => exact trivial
    | _ => exact trivial

/-- What the client sends to a server with nothing in it, and gets. -/
def emptyRequests : List (List UInt8 × List UInt8) :=
  [(recvCommandBytes dot 0 1 ++ [isrRecvGo],
    confirmation isrRecvTypeDirectory 0 ++ plainStream [])]

/-- **A directory that cannot be made is not missed**: the tree under `/`, which is empty, is
downloaded to `f/d`, and `f` is a file. -/
theorem download_hindered :
    ¬ Mirrors (servedMachine Faults.none false true Faults.none shortLz4 [slash] FS.empty)
      shortLz4 0 1 dot [0x66, slash, 0x64] FS.empty [] threeBytes := by
  intro h
  have hrun : (execute (fun _ w op => (machineAnswer ((emptyRequests.head?.map Prod.snd).getD [])
      w op).filter fun a => onServed emptyRequests a.2)
      (isrCliDownloadDirectory shortLz4 20 0 1 1 dot [0x66, slash, 0x64])
      (Proc.start threeBytes [])).map (fun a => (a.1, a.2.sys.lead [0x66, slash, 0x64])) =
        some (0, none) := by decide +kernel
  obtain ⟨⟨r, v⟩, hexec, hr⟩ := Option.map_eq_some_iff.mp hrun
  obtain ⟨rfl, hlead⟩ := Prod.mk.inj hr
  have hreaches := reaches_of_execute (E := servedMachine Faults.none false true Faults.none
    shortLz4 [slash] FS.empty) (fun _ _ _ _ _ hanswer => by
      obtain ⟨hmachine, hserved⟩ := Option.filter_eq_some_iff.mp hanswer
      exact ⟨machine_of_answer hmachine, servedBy_of_onServed (t := .initial .empty) rfl
        (by decide +kernel) hserved⟩) hexec
  obtain ⟨failed, -, hresult, -, hmirrored⟩ := h _ _ _ _ hreaches
  obtain rfl := eq_nil_of_resultOf hresult.symm
  obtain ⟨j, hj, -⟩ := (hmirrored [] fun d hd => absurd hd List.not_mem_nil).dir rfl
  rw [under_nil, hlead] at hj
  exact absurd hj (by simp)

end IsrTransfer
