import IsrTransfer.AnsweringServer
import IsrTransfer.FaultyStreams
import IsrTransfer.ListingRoundTrip
import IsrTransfer.StoredFiles

/-!
# A directory tree that is served

A client that connects again and again to a server whose files stay as they are gets, on every
connection, what the handler sends when it begins with these files (`ServedBy`).  So what comes
in on a connection is true of the tree: a file is offered only with the length that it has,
and what follows is sent of it (`ServedBy.file`); a listing has the names of a directory, and
tells directories apart (`ServedBy.listing`).

Neither is offered for a path that does not fit into the server's buffer under the root.  This
is what becomes of a path that the client has cut.

Nothing else is promised: the server may refuse anything, fail to read, or break off in the
middle of what it sends, and a new connection need not go like the one before.  That the client
gets the right bytes in spite of this is a matter of the checksums and of the lengths (see
`FaultyStreams` and `DownloadParts`).

`stat` is asked for paths that the server has put together, of the path that it has resolved and
a name, and cut to its buffer.  Without links such a path leads to the entry of that name, if it
has not been cut (`entry_of_resolve`).  If it has, the listing may say anything of the entry,
and the client will ask for a path that the server refuses.
-/

namespace IsrTransfer

open Effect Posix

variable {G : Faults} {L : Lz4} {root path : List UInt8} {flags : UInt8} {blockSize : Nat}
variable {fs : FS} {l k : Loc} {w : World}

/-- What is promised about the tree under `l`: the root is the real path of `l`, there are no
links, and the lengths of files and the numbers of entries fit into their types, `uint64_t`
and `int`. -/
structure ServedTree (root : List UInt8) (l : Loc) (fs : FS) : Prop where
  canonical : Canonical fs root l
  noLinks : fs.NoLinksBelow l
  short : ∀ k content, l <:+ k → fs.contents k = some content → content.length < word64
  few : ∀ k, l <:+ k → (fs.children k).length < 2 ^ 31

/-- Once something has been sent on a connection, what comes in is what the handler sends, in a
run that begins with the files `fs` and with what has been sent. -/
def ServedBy (G : Faults) (L : Lz4) (root : List UInt8) (fs : FS) (w : World) : Prop :=
  w.tx ≠ [] → ∃ fuel s rest r v, s.fs = fs ∧ s.script = none ∧
    Reaches (machine G false true) (serveConnection L fuel root) (Proc.start s (w.tx ++ rest))
      (.ret r) v ∧ v.tx = w.input

/-! ## Requests -/

theorem length_requested (path : List UInt8) : (requested path).length = pathLen path :=
  List.length_take_of_le (pathLen_le path)

theorem requested_of_short (h : path.length < 65536) : requested path = path := by
  rw [requested, pathLen, Nat.mod_eq_of_lt h, List.take_length]

theorem recvCommandBytes_requested (path : List UInt8) (flags : UInt8) (blockSize : Nat) :
    recvCommandBytes (requested path) flags blockSize = recvCommandBytes path flags blockSize := by
  have hlen : pathLen (requested path) = pathLen path := by
    have hmod : pathLen path < 65536 := Nat.mod_lt _ (by decide)
    rw [pathLen, length_requested, Nat.mod_eq_of_lt hmod]
  rw [recvCommandBytes, recvCommandBytes, hlen, requested, List.take_take, Nat.min_self]

/-- What the handler has done that has been asked for a path. -/
theorem ServedBy.outcome (h : ServedBy G L root fs w) (h0 : (0 : UInt8) ∉ path)
    (hblocks : BlocksOk L flags blockSize)
    (hcommand : recvCommandBytes path flags blockSize <+: w.tx) :
    ∃ s v, s.fs = fs ∧ v.tx = w.input ∧
      RecvOutcome (SentOf L flags blockSize) root (requested path) s v := by
  obtain ⟨sent, hsent⟩ := hcommand
  obtain ⟨fuel, s, rest, r, v, rfl, hs, hrun, hv⟩ := h (by
    rw [← hsent]
    simp [recvCommandBytes])
  rw [← hsent, ← recvCommandBytes_requested, List.append_assoc] at hrun
  have hgives : Gives G (fun _ => True)
      (fun fd => transmitFile L fuel fd flags (blockSize % 256 ^ 4)) (SentOf L flags blockSize) :=
    gives_sent fun hflag => hblocks.mod hflag
  have hout := (ensures_serveConnection_recv hgives (fun hmem => h0 (List.mem_of_mem_take hmem))
    ((length_requested path).trans_lt (Nat.mod_lt _ (by decide))) hs
    fun _ _ _ _ _ _ _ => trivial).of_reaches hrun
  exact ⟨s, v, rfl, hv, hout.2⟩

/-- A path that has been resolved fits. -/
theorem length_of_resolvedPath {s : Sys} {relative full : List UInt8}
    (h : resolvedPath s root relative isrPathMax = some full) :
    (root ++ slash :: relative).length < pathMax := by
  by_contra hlong
  rw [resolvedPath_of_long (Nat.not_lt.mp hlong)] at h
  exact absurd h (by simp)

/-! ## Files -/

/-- **A file is offered as it is.** -/
theorem ServedBy.file (htree : ServedTree root l fs) (h : ServedBy G L root fs w)
    (h0 : (0 : UInt8) ∉ path) (hblocks : BlocksOk L flags blockSize)
    (hcommand : recvCommandBytes path flags blockSize <+: w.tx)
    (hlen : sizeofRecvConfirmation ≤ w.input.length)
    (htype : (confirmationOf w.input).responseType = isrRecvTypeFile) :
    (root ++ slash :: requested path).length < pathMax ∧ ∃ content,
      fs.contents (placeOf l (requested path)) = some content ∧
      content.length < word64 ∧
      (confirmationOf w.input).effectiveLength = content.length ∧
      SentOf L flags blockSize content (w.input.drop sizeofRecvConfirmation) := by
  obtain ⟨s, v, rfl, hv, hout⟩ := h.outcome h0 hblocks hcommand
  rw [← hv] at hlen htype ⊢
  cases hout with
  | nothing hno =>
    rcases hno with hshort | ⟨t, m, htx, hfile, -⟩
    · omega
    · have hconf := confirmationOf_append t m []
      rw [List.append_nil] at hconf
      rw [htx, hconf] at htype
      exact absurd htype hfile
  | directory m _ _ _ _ htx _ =>
    rw [htx, confirmationOf_append] at htype
    exact absurd (show isrRecvTypeDirectory = isrRecvTypeFile from htype) (by decide)
  | @file full content data k hvalid hfull hk hcontents htx hdata =>
    obtain rfl := place_of_resolvedPath htree.canonical htree.noLinks hvalid hfull
      (Sys.DirsAdded.refl s) hk
    have hshort := htree.short _ content (FS.suffix_descend l _) hcontents
    refine ⟨length_of_resolvedPath hfull, content, hcontents, hshort, ?_, ?_⟩
    · rw [htx, confirmationOf_append]
      exact Nat.mod_eq_of_lt hshort
    · have hdrop : v.tx.drop sizeofRecvConfirmation = data := by
        rw [htx]
        exact List.drop_left' (length_recvConfirmation _)
      rw [hdrop]
      rcases hdata with rfl | hdata
      · exact sentOf_nil
      · exact hdata

/-! ## Listings

What a listing says about the tree: there is a record for every entry of the directory and for
nothing else, and what it calls a directory is one. -/

/-- `es` are the entries of the directory at `k`, as they are listed for `path`. -/
structure EntriesOf (root path : List UInt8) (fs : FS) (k : Loc) (es : List IsrCliDirEntry) :
    Prop where
  dir : fs.node k = some .dir
  names : (es.map IsrCliDirEntry.name).Perm (fs.children k)
  /-- What is listed as a directory is one, if its path fits into the buffers. -/
  dirs : ∀ e ∈ es, e.isDirectory ≠ 0 →
    (root ++ slash :: (path ++ slash :: e.name)).length < pathMax →
    fs.node (e.name :: k) = some .dir

/-- A real path is a C string. -/
theorem zero_notMem_render {k : Loc} (h : ∀ n ∈ k, ValidName n) : (0 : UInt8) ∉ render k := by
  have hnames : ∀ k : Loc, (∀ n ∈ k, ValidName n) → (0 : UInt8) ∉ renderNames k := by
    intro k
    induction k with
    | nil => exact fun _ => List.not_mem_nil
    | cons n k ih =>
      intro h hmem
      obtain ⟨hn, hk⟩ := List.forall_mem_cons.mp h
      rcases List.mem_append.mp hmem with hmem | hmem
      · exact ih hk hmem
      · rcases List.mem_cons.mp hmem with hmem | hmem
        · exact absurd hmem (by decide)
        · exact hn.2.2.2.2.1 hmem
  unfold render
  split
  · decide
  · exact hnames k h

/-- What `isr_resolve_path` gives out for a C string is one, and not longer. -/
theorem resolvedPath_string {s : Sys} {full : List UInt8} (hroot : Canonical s.fs root l)
    (hlinks : s.fs.NoLinksBelow l) (hvalid : isrValidatePath path ≠ -1) (h0 : (0 : UInt8) ∉ path)
    (hfull : resolvedPath s root path isrPathMax = some full) :
    (0 : UInt8) ∉ full ∧ full.length ≤ (root ++ slash :: path).length := by
  have hlen := length_of_resolvedPath hfull
  have hdd := dotdot_notMem_of_valid hvalid
  obtain ⟨out, -, -, hout, hle, -⟩ := resolvedPath_means hroot hlinks hdd hlen
  obtain rfl := Option.some.inj (hout.symm.trans hfull)
  obtain ⟨out', hout', hsame⟩ := samePlace_of_resolvedPath hroot hlinks hdd hlen
  obtain rfl := Option.some.inj (hout'.symm.trans hfull)
  refine ⟨?_, hle⟩
  have hroot0 : (0 : UInt8) ∉ root := by
    rw [hroot.path_eq]
    exact zero_notMem_render (FS.validNames hroot.dir)
  have hsent : (0 : UInt8) ∉ root ++ slash :: path := by
    rw [List.mem_append, List.mem_cons]
    rintro (h | h | h)
    · exact hroot0 h
    · exact absurd h (by decide)
    · exact h0 h
  obtain ⟨dir, name, heq, -, rfl | ⟨rp, hrp, rfl⟩⟩ := hsame.last
  · exact hsent
  · obtain ⟨k, nd, -, hk, rfl, -⟩ := realpath_eq_some hrp
    rw [heq] at hsent
    intro hmem
    rcases List.mem_append.mp hmem with hmem | hmem
    · exact zero_notMem_render (FS.validNames hk) hmem
    · exact hsent (List.mem_append_right _ hmem)

/-- Where there are no links, the path of an entry leads to the entry. -/
theorem entry_of_resolve {s : Sys} {full : List UInt8} {n : Name} {j : Loc}
    (hlinks : s.fs.NoLinksBelow k) (hn : ValidName n) (hk : s.resolve full = some k)
    (hj : s.resolve (full ++ slash :: n) = some j) : j = n :: k := by
  have hne : full ≠ [] := by
    rintro rfl
    exact absurd hk (by simp [Sys.resolve, FS.resolve])
  obtain ⟨hs, hd⟩ := not_stays_of_valid hn
  have hlead := (Sys.leadsTo_append hne (Sys.leadsTo_of_resolve hk)).mp (Sys.leadsTo_of_resolve hj)
  rw [components_of_notMem (slash_notMem_of_valid hn),
    FS.leads_name hs hd fun t => hlinks _ t (List.suffix_cons _ _)] at hlead
  exact (FS.leads_nil.mp hlead).symm

/-- What the record of an entry says: the size is what fits into its field. -/
def IsrCliDirEntry.record (e : IsrCliDirEntry) : IsrCliDirEntry :=
  { e with size := e.size % 256 ^ 8 }

theorem listingBytes_record (es : List IsrCliDirEntry) :
    listingBytes (es.map IsrCliDirEntry.record) = listingBytes es := by
  induction es with
  | nil => rfl
  | cons e es ih =>
    rw [List.map_cons, listingBytes_cons, listingBytes_cons, ih, entryBytes, entryBytes,
      IsrCliDirEntry.header, IsrCliDirEntry.header, IsrCliDirEntry.record, toBe_mod]

theorem IsrCliDirEntry.fits_record {e : IsrCliDirEntry} (h : e.name.length ≤ 255) :
    e.record.Fits :=
  ⟨h.trans_lt (by decide), Nat.mod_lt _ (by decide)⟩

/-- What the server makes of the names of a directory are its entries. -/
theorem entriesOf_of_collected {s : Sys} {full : List UInt8} {names : List Name}
    {es : List IsrCliDirEntry} (hroot : Canonical s.fs root l) (hlinks : s.fs.NoLinksBelow l)
    (hvalid : isrValidatePath path ≠ -1) (h0 : (0 : UInt8) ∉ path)
    (hfull : resolvedPath s root path isrPathMax = some full) (hk : s.resolve full = some k)
    (hbelow : l <:+ k) (hdir : s.fs.node k = some .dir) (hnames : s.OpendirStep full (some names))
    (hes : Collected s full names es) : EntriesOf root path s.fs k es := by
  obtain ⟨hfull0, hle⟩ := resolvedPath_string hroot hlinks hvalid h0 hfull
  have hlegal : ∀ n ∈ names, ¬ (n = dot ∨ n = dotdot) → ValidName n :=
    fun n hn hdots => validName_of_opendir hnames hn hdots
  refine ⟨hdir, ?_, fun e he hflag hlen => ?_⟩
  · unfold Sys.OpendirStep at hnames
    simp only [hk, hdir] at hnames
    obtain ⟨names', hperm, heq⟩ := hnames
    obtain rfl := Option.some.inj heq
    rw [hes.names hlegal]
    refine (hperm.filter _).trans (List.Perm.of_eq ?_)
    rw [List.filter_cons_of_neg (by simp), List.filter_cons_of_neg (by simp),
      List.filter_eq_self.mpr]
    intro n hn
    obtain ⟨nd, hnd⟩ := FS.mem_children.mp hn
    have hvalid := FS.validName_of_node hnd
    simp [hvalid.2.1, hvalid.2.2.1]
  · obtain ⟨n, r, hn, hdots, hstat, rfl⟩ := hes.exists_stat e he
    have hn := hlegal n hn hdots
    have hname : (entryOf n r).name = n := List.take_of_length_le hn.2.2.2.2.2
    rw [hname] at hlen ⊢
    have hshort : (full ++ slash :: n).length < isrPathMax := by
      have hmax : isrPathMax = pathMax := rfl
      simp only [List.length_append, List.length_cons] at hlen hle ⊢
      omega
    rw [snprintfPath_of_short hfull0 hn.2.2.2.2.1 hshort] at hstat
    have hflag : (r.getD (false, 0)).1 = true := by
      by_contra hno
      exact hflag (if_neg hno)
    cases r with
    | none => exact absurd hflag (by decide)
    | some r =>
      obtain ⟨isDir, size⟩ := r
      obtain rfl : isDir = true := hflag
      obtain ⟨j, hj, hjdir⟩ := Sys.statStep_dir hstat
      obtain rfl := entry_of_resolve (hlinks.mono hbelow) hn hk hj
      exact hjdir

/-- Only names and kinds matter. -/
theorem EntriesOf.record {es : List IsrCliDirEntry} (h : EntriesOf root path fs k es) :
    EntriesOf root path fs k (es.map IsrCliDirEntry.record) where
  dir := h.dir
  names := by
    rw [List.map_map]
    exact h.names
  dirs := by
    intro e' he' hflag hlen
    obtain ⟨e, he, rfl⟩ := List.mem_map.mp he'
    exact h.dirs e he hflag hlen

/-- **A listing is true.**  What the client reads as the records of a listing are the entries
of the directory that it has asked for. -/
theorem ServedBy.listing (htree : ServedTree root l fs) (h : ServedBy G L root fs w)
    (h0 : (0 : UInt8) ∉ path) (hblocks : BlocksOk L flags blockSize)
    (hcommand : recvCommandBytes path flags blockSize <+: w.tx) {es : List IsrCliDirEntry}
    {rest : List UInt8} (hlists : Lists w.input (listingBytes es ++ rest))
    (hes : ∀ e ∈ es, IsrCliDirEntry.Fits e) (hrest : Torn rest) :
    (root ++ slash :: requested path).length < pathMax ∧
      EntriesOf root (requested path) fs (placeOf l (requested path)) es := by
  obtain ⟨s, v, rfl, hv, hout⟩ := h.outcome h0 hblocks hcommand
  rw [← hv] at hlists
  have htype := hlists.type
  have hlen := hlists.length
  cases hout with
  | nothing hno =>
    rcases hno with hshort | ⟨t, m, htx, -, hdir⟩
    · rw [List.length_drop] at hlen
      omega
    · have hconf := confirmationOf_append t m []
      rw [List.append_nil] at hconf
      rw [htx, hconf] at htype
      exact absurd htype hdir
  | file _ _ _ _ htx _ =>
    rw [htx, confirmationOf_append] at htype
    exact absurd (show isrRecvTypeFile = isrRecvTypeDirectory from htype) (by decide)
  | @directory full data k m hvalid hfull hk hdir htx hdata =>
    obtain rfl := place_of_resolvedPath htree.canonical htree.noLinks hvalid hfull
      (Sys.DirsAdded.refl s) hk
    have hbelow : l <:+ placeOf l (requested path) := FS.suffix_descend l _
    have hdrop : v.tx.drop sizeofRecvConfirmation = data := by
      rw [htx]
      exact List.drop_left' (length_recvConfirmation _)
    have hlisting := hlists.listing
    rw [hdrop] at hlen hlisting
    rcases hdata with rfl | ⟨names, es₀, hnames, hes₀, rfl, rfl⟩
    · rw [List.length_nil] at hlen
      omega
    refine ⟨length_of_resolvedPath hfull, ?_⟩
    have hentries := entriesOf_of_collected htree.canonical htree.noLinks hvalid
      (fun hmem => h0 (List.mem_of_mem_take hmem)) hfull hk hbelow hdir hnames hes₀
    have hfits : ∀ e ∈ es₀.map IsrCliDirEntry.record, e.Fits := by
      intro e' he'
      obtain ⟨e, he, rfl⟩ := List.mem_map.mp he'
      exact IsrCliDirEntry.fits_record (hes₀.length_name e he)
    -- the length that is announced is the length of the listing
    have hbound := length_listingBytes_le hes₀.length_name
    have hcount : es₀.length < 2 ^ 31 := by
      have hperm := hentries.names.length_eq
      rw [List.length_map] at hperm
      rw [hperm]
      exact htree.few _ hbelow
    have hlength : (confirmationOf v.tx).effectiveLength = (listingBytes es₀).length := by
      rw [htx, confirmationOf_append]
      exact Nat.mod_eq_of_lt (by omega)
    rw [hlength, plainStream, List.take_left, ← listingBytes_record es₀] at hlisting
    have hsame : listingBytes es ++ rest =
        listingBytes (es₀.map IsrCliDirEntry.record) ++ [] := by
      rw [hlisting, List.append_nil]
    have hle := prefix_of_listingBytes hes hfits hrest hsame
    have hge := prefix_of_listingBytes hfits hes torn_nil hsame.symm
    rw [hge.eq_of_length_le hle.length_le]
    exact hentries.record

end IsrTransfer
