import IsrTransfer.DownloadRuns

/-!
# Listings that are cut off

`isr_cli_parse_directory_listing` stops where the buffer does not hold another record and
returns the records before.  The caller cannot tell this from the end of the listing, nor
a parse that found no memory from a listing without entries: its test,
`!entries && entry_count != 0`, never succeeds.

So a download that returns 0 has processed the whole listing exactly if the listing is a
sequence of complete records and the parser has the memory it asks for
(`malformedReported_iff`).

## Complete listings

A run of the program is followed backwards from its result.  A result of 0 says that no entry has
failed, since the loop never takes back a failure (`reaches_downloadEntries`); so the loop has
gone through all the entries that the parser gave, and these are the whole listing.

## Other listings

For the direction that needs runs, one client will do: its local directory has a name so long that
every entry's path is cut to the same file, which exists, and so every entry the server announces
is downloaded (`exists_downloadEntries`).  What the entries are does not matter then, and the
client returns 0 on any listing of which the parser has left something over, and on any for which
it has found no memory.
-/

namespace IsrTransfer

open Effect Posix

/-! ## What is reported -/

section Parts

variable (L : Lz4) (fuel : Nat) (flags : UInt8) (blockSize depth : Nat)
  (remotePath localDir : List UInt8)

/-- The entries are downloaded one after the other, and none fails. -/
inductive Processed (E : Env (NetOp OsOp) World) :
    List IsrCliDirEntry → World → World → Prop where
  | nil (w : World) : Processed E [] w w
  | cons {e : IsrCliDirEntry} {es : List IsrCliDirEntry} {w u v : World} :
      Reaches E (downloadEntry L fuel flags blockSize depth remotePath localDir e) w (.ret 0) u →
        Processed E es u v → Processed E (e :: es) w v

end Parts

/-- The buffer is exactly a sequence of complete records. -/
def Complete (buf : List UInt8) : Prop :=
  ∃ es, (∀ e ∈ es, IsrCliDirEntry.Fits e) ∧ buf = listingBytes es

/-- Whenever a download has received the listing `buf` and its checksum was right, it
returns -1, or it returns 0 and has parsed the whole of `buf` and processed every entry of
it. -/
def MalformedReported (F : Faults) (buf : List UInt8) : Prop :=
  ∀ (L : Lz4) (fuel : Nat) (flags : UInt8) (blockSize depth : Nat)
    (remotePath localDir : List UInt8) (lossy eof : Bool) (w u : World),
    Reaches (machine F lossy eof)
      (isrCliDownloadDirectory L fuel flags blockSize (depth + 1) remotePath localDir) w
      (afterListing L fuel flags blockSize depth remotePath localDir buf) u →
    ∀ parsed u₁, Reaches (machine F lossy eof) (isrCliParseDirectoryListing buf) u
      (.ret parsed) u₁ →
    ∀ r v, Reaches (machine F lossy eof)
      (afterParse L fuel flags blockSize depth remotePath localDir parsed) u₁ (.ret r) v →
    r = -1 ∨ r = 0 ∧ ∃ es, (∀ e ∈ es, IsrCliDirEntry.Fits e) ∧ buf = listingBytes es ∧
      parsed.1.getD [] = es ∧ ∃ made u₂,
        Reaches (machine F lossy eof) (isrMkdirRecursive localDir) u₁ (.ret made) u₂ ∧
        Processed L fuel flags blockSize depth remotePath localDir (machine F lossy eof) es
          u₂ v

/-! ## Complete listings -/

section Complete

variable {F : Faults} {lossy eof : Bool} {L : Lz4} {fuel : Nat} {flags : UInt8}
  {blockSize depth : Nat} {remotePath localDir : List UInt8}

/-- A complaint is followed by a failure. -/
theorem result_of_complain {format : String} {args : List Arg} {r : Int} {w v : World}
    (h : Reaches (machine F lossy eof) (complain format args >>= fun _ => pure (-1)) w (.ret r)
      v) : r = -1 := by
  have hall : Ensures (machine F lossy eof) Anything (complain format args >>= fun _ => pure (-1))
      (fun r _ => r = -1) w := by
    rw [ensures_bind, complain, ensures_eprint]
    exact ⟨trivial, rfl⟩
  exact hall.of_reaches h

/-- The result is -1 once an entry has failed, and only then. -/
theorem reaches_noteFailure {ret result r : Int} {format : String} {path : List UInt8}
    {w v : World} (h : Reaches (machine F lossy eof) (noteFailure ret format path result) w
      (.ret r) v) : ret ≠ 0 ∧ r = -1 ∨ ret = 0 ∧ r = result ∧ v = w := by
  unfold noteFailure at h
  split at h
  case isTrue hret =>
    exact Or.inl ⟨hret, result_of_complain h⟩
  case isFalse hret =>
    cases h with
    | refl => exact Or.inr ⟨not_not.mp hret, rfl, rfl⟩

/-- The loop over the entries returns 0 if every entry has been processed, and -1
otherwise. -/
theorem reaches_downloadEntries {es : List IsrCliDirEntry} : ∀ {result r : Int} {w v : World},
    Reaches (machine F lossy eof)
      (downloadEntries L fuel (isrCliDownloadDirectory L fuel flags blockSize depth) remotePath
        localDir flags blockSize es result) w (.ret r) v →
    r = -1 ∨ r = result ∧ Processed L fuel flags blockSize depth remotePath localDir
      (machine F lossy eof) es w v := by
  induction es with
  | nil =>
    intro result r w v h
    cases h with
    | refl => exact Or.inr ⟨rfl, .nil _⟩
  | cons e es ih =>
    intro result r w v h
    obtain ⟨format, path, heq⟩ := @downloadEntries_cons L fuel flags blockSize depth remotePath
      localDir e es result
    rw [heq] at h
    obtain ⟨result', u, hhead, htail⟩ := h.of_bind
    obtain ⟨ret, t, hentry, hnote⟩ := hhead.of_bind
    rcases reaches_noteFailure hnote with ⟨-, rfl⟩ | ⟨rfl, rfl, rfl⟩
    · rcases ih htail with hr | ⟨hr, -⟩
      · exact Or.inl hr
      · exact Or.inl hr
    · rcases ih htail with hr | ⟨hr, hes⟩
      · exact Or.inl hr
      · exact Or.inr ⟨hr, .cons hentry hes⟩

theorem reaches_afterParse {parsed : Option (List IsrCliDirEntry) × Nat} {r : Int}
    {w v : World} (h : Reaches (machine F lossy eof)
      (afterParse L fuel flags blockSize depth remotePath localDir parsed) w (.ret r) v) :
    r = -1 ∨ r = 0 ∧ ∃ made u,
      Reaches (machine F lossy eof) (isrMkdirRecursive localDir) w (.ret made) u ∧
      Processed L fuel flags blockSize depth remotePath localDir (machine F lossy eof)
        (parsed.1.getD []) u v := by
  unfold afterParse at h
  split at h
  case isTrue =>
    exact Or.inl (result_of_complain h)
  case isFalse =>
    obtain ⟨made, u, hmkdir, hentries⟩ := h.of_bind
    rcases reaches_downloadEntries hentries with hr | ⟨hr, hes⟩
    · exact Or.inl hr
    · exact Or.inr ⟨hr, made, u, hmkdir, hes⟩

/-- The parser of a complete listing with the memory it needs gives all its entries. -/
theorem malformedReported_of_complete {F : Faults} {buf : List UInt8} (hbuf : Complete buf)
    (hF : F.alloc = false ∨ buf = []) : MalformedReported F buf := by
  obtain ⟨es, hes, rfl⟩ := hbuf
  intro L fuel flags blockSize depth remotePath localDir lossy eof w u _ parsed u₁ hparse r v hrun
  have hparsed : parsed.1.getD [] = es := by
    have hrule : Ensures (machine F lossy eof) Anything
        (isrCliParseDirectoryListing (listingBytes es ++ []))
        (fun parsed _ => parsed.1.getD [] = es) u := by
      refine ensures_isrCliParseDirectoryListing permits_anything hes torn_nil ?_ ?_ ?_
      · exact fun h => h.symm
      · exact fun _ => rfl
      · intro halloc
        rcases hF with hF | hnil
        · exact absurd halloc (by simp [hF])
        · cases es with
          | nil => rfl
          | cons e es =>
            have hlen := congrArg List.length hnil
            rw [listingBytes_cons, List.length_append, length_entryBytes] at hlen
            simp at hlen
    rw [List.append_nil] at hrule
    exact hrule.of_reaches hparse
  rcases reaches_afterParse hrun with hr | ⟨hr, made, u₂, hmkdir, hprocessed⟩
  · exact Or.inl hr
  · rw [hparsed] at hprocessed
    exact Or.inr ⟨hr, es, hes, rfl, hparsed, made, u₂, hmkdir, hprocessed⟩

end Complete

/-! ## A client that every download succeeds for

Whether the whole listing has been processed must not depend on a download that fails.  So there
is one situation in which none does: the local path is so long that every name is cut off, and a
file stands there that can be opened again and again.  Only the parser can fail then, and the
result of the program says whether it has. -/

section Runs

variable {L : Lz4} {fuel : Nat} {flags : UInt8} {blockSize depth : Nat}
  {remotePath localDir : List UInt8} {w : World}

theorem exists_mkdir (path : List UInt8) : ∃ r s,
    Reaches (machine Faults.none false false) (isrMkdirRecursive path) w (.ret r)
      (w.withSys s) := by
  obtain ⟨s, hs⟩ := exists_mkdirs Faults.none w.sys (mkdirTargets path)
  obtain ⟨r, hrun⟩ := reaches_isrMkdirRecursive' hs
  exact ⟨r, s, hrun⟩

/-- A directory whose listing is empty. -/
theorem exists_emptyDirectory : ∃ v, Reaches (machine Faults.none false false)
    (isrCliDownloadDirectory L fuel flags blockSize (depth + 1) remotePath localDir) w (.ret 0)
    v := by
  obtain ⟨u, hrun, -⟩ := @exists_afterListing L fuel flags blockSize depth remotePath localDir w
    (fun _ => True) [] (by decide) trivial
  obtain ⟨made, s, hmkdir⟩ := @exists_mkdir u localDir
  exact ⟨u.withSys s, hrun.of_restrict.trans (hmkdir.bind _)⟩

/-- A name for the local directory that leaves no room for the name of an entry. -/
def clogged : List UInt8 := List.replicate (pathMax - 2) slash ++ [0x66]

theorem length_clogged : clogged.length = pathMax - 1 := by
  rw [clogged, List.length_append, List.length_replicate]
  rfl

theorem snprintfPath_clogged (name : List UInt8) :
    snprintfPath clogged name isrPathMax = clogged := by
  have hnul : (0 : UInt8) ∉ clogged := by
    rw [clogged, List.mem_append, List.mem_replicate]
    decide
  have hlen : clogged.length = isrPathMax - 1 := length_clogged
  rw [snprintfPath, cstr_of_notMem hnul, List.take_left' hlen]

/-- There is a regular file `/f`. -/
structure Occupied (fs : FS) : Prop where
  file : ∃ i, fs.node [[0x66]] = some (.file i)
  search : fs.noSearch [] = false

theorem Occupied.grows {fs fs' : FS} (h : Occupied fs) (hg : fs.Grows fs') : Occupied fs' := by
  obtain ⟨i, hi⟩ := h.file
  exact ⟨⟨i, hg.keep _ _ hi⟩, by rw [hg.search, h.search]⟩

/-- The slashes at the beginning do not count. -/
theorem resolve_clogged {fs : FS} (h : Occupied fs) (cwd : Loc) :
    fs.resolve cwd clogged = some [[0x66]] := by
  obtain ⟨i, hi⟩ := h.file
  have hwalk : ∀ n, fs.walk symloopMax [] (components (List.replicate n slash ++ [0x66])) =
      some [[0x66]] := by
    intro n
    induction n with
    | zero =>
      exact FS.walkWith_object ⟨FS.node_nil fs, h.search⟩ (by decide) (by decide) hi (by simp)
    | succ n ih =>
      rw [List.replicate_succ, List.cons_append, components_cons, if_pos rfl,
        FS.walk_stays h.search, ih]
  have hstart : startOf clogged cwd = [] := if_pos rfl
  have hshort : ¬ (clogged = [] ∨ pathMax ≤ clogged.length) := by
    rw [← List.length_eq_zero_iff, length_clogged]
    decide
  rw [FS.resolve, if_neg hshort, hstart]
  exact hwalk _

/-- The file can be opened, and receive nothing. -/
theorem exists_isrCliDownloadFile (h : Occupied w.sys.fs) : ∃ v,
    Reaches (machine Faults.none false false)
      (isrCliDownloadFile L fuel remotePath clogged 0 blockSize) w (.ret 0) v := by
  have hP := permits_answered Faults.none false false
  have hlen : (confirmation isrRecvTypeFile 0).length = sizeofRecvConfirmation :=
    length_recvConfirmation _
  have hconf : confirmationOf (confirmation isrRecvTypeFile 0 ++ plainStream []) =
      ⟨isrRecvTypeFile, 0⟩ := by
    rw [confirmationOf, List.take_left' hlen, confirmation, ofBytes_recvConfirmation]
    rfl
  have hstart := (@reaches_downloadInto L fuel 0 blockSize remotePath w (fun _ => True) clogged
    (confirmation isrRecvTypeFile 0 ++ plainStream []) (by decide) trivial
    (by rw [hconf])).of_restrict
  rw [hconf] at hstart
  generalize hu : (confirmedWorld w.sys _ _).sent _ = u at hstart
  have hrx : u.rx = plainStream [] := by
    rw [← hu, Proc.sent_rx, confirmedWorld, Proc.received_rx, asked_rx, List.drop_left' hlen]
  have hocc : Occupied u.sys.fs := by
    rw [← hu]
    exact h
  have hinto : ∀ s, u.sys.fs.Grows s.fs → Terminates (machine Faults.none false false)
      (receiveInto L fuel 0 blockSize 0 clogged "  Failed to receive file.\n"
        "  Checksum mismatch!\n")
      (fun r _ => r = 0) (u.withSys s) := by
    intro s hs
    obtain ⟨i, hi⟩ := (hocc.grows hs).file
    have hopen : s.openWrite clogged =
        Sys.newFd { s with fs := s.fs.setData i [] } (some i) := by
      have hres : s.resolve clogged = some [[0x66]] := resolve_clogged (hocc.grows hs) s.cwd
      simp only [Sys.openWrite, hres, hi]
    refine ensures_receiveInto hP "  Failed to receive file.\n" "  Checksum mismatch!\n"
      (by decide) (by decide) ⟨answered_openWrite _, ?_, ?_⟩
    · intro hfail
      rw [Proc.withSys_sys, hopen] at hfail
      exact absurd hfail (by simp [Sys.newFd, Faults.none])
    · intro fd s' _
      have hfile := @ensures_isrReceiveFileUncompressed Faults.none false false _ fd [] []
        (fun r v => (TakenAsFailed r → ∀ u, Complains v u → (-1 : Int) = 0) ∧
          (¬ TakenAsFailed r → (0 : Int) = 0))
        ((u.withSys s).withSys s') hP (permitsRecv_answered _ _ _) rfl rfl
        (by rw [Proc.withSys_rx, Proc.withSys_rx, hrx, List.append_nil])
        ⟨fun hbad => absurd hbad (by decide), fun _ => rfl⟩
      exact hfile
  cases hparent : isrParentDir clogged isrPathMax with
  | none =>
    rw [downloadInto_of_none hparent] at hstart
    obtain ⟨r, v, hrun, rfl⟩ := (hinto u.sys (FS.Grows.refl _)).exists_ret
    exact ⟨v, hstart.trans hrun⟩
  | some parent =>
    rw [downloadInto_of_some hparent] at hstart
    obtain ⟨made, s, hmkdir⟩ := @exists_mkdir u parent
    obtain ⟨r, v, hrun, rfl⟩ := (hinto s (grows_of_reaches hmkdir)).exists_ret
    exact ⟨v, (hstart.trans (hmkdir.bind _)).trans hrun⟩

theorem exists_downloadEntries (es : List IsrCliDirEntry) : ∀ {w : World}, Occupied w.sys.fs →
    ∃ v, Reaches (machine Faults.none false false)
      (downloadEntries L fuel (isrCliDownloadDirectory L fuel 0 blockSize 1) remotePath clogged
        0 blockSize es 0) w (.ret 0) v := by
  induction es with
  | nil => exact fun {w} _ => ⟨w, .refl _ _⟩
  | cons e es ih =>
    intro w h
    obtain ⟨u, hentry⟩ : ∃ u, Reaches (machine Faults.none false false)
        (downloadEntry L fuel 0 blockSize 1 remotePath clogged e) w (.ret 0) u := by
      unfold downloadEntry
      rw [snprintfPath_clogged]
      split
      · exact exists_emptyDirectory
      · exact exists_isrCliDownloadFile h
    obtain ⟨v, hrest⟩ := ih (h.grows (grows_of_reaches hentry))
    obtain ⟨format, path, heq⟩ := @downloadEntries_cons L fuel 0 blockSize 1 remotePath clogged e
      es 0
    refine ⟨v, ?_⟩
    rw [heq]
    exact ((hentry.bind _).bind _).trans hrest

/-- What the parser returns is acted on. -/
theorem exists_afterParse {parsed : Option (List IsrCliDirEntry) × Nat}
    (hparsed : ¬ (parsed.1 = none ∧ parsed.2 ≠ 0)) (h : Occupied w.sys.fs) : ∃ v,
    Reaches (machine Faults.none false false)
      (afterParse L fuel 0 blockSize 1 remotePath clogged parsed) w (.ret 0) v := by
  obtain ⟨made, s, hmkdir⟩ := @exists_mkdir w clogged
  obtain ⟨v, hrun⟩ := @exists_downloadEntries L fuel blockSize remotePath (parsed.1.getD [])
    (w.withSys s) (h.grows (grows_of_reaches hmkdir))
  refine ⟨v, ?_⟩
  rw [afterParse, if_neg hparsed]
  exact (hmkdir.bind _).trans hrun

end Runs

/-! ## Exactly when a listing is processed as a whole -/

/-- The parser finds records, but no memory for them. -/
theorem reaches_parse_alloc {F : Faults} (hF : F.alloc) {es : List IsrCliDirEntry}
    (hes : ∀ e ∈ es, IsrCliDirEntry.Fits e) (hne : es ≠ []) (w : World) :
    Reaches (machine F false false) (isrCliParseDirectoryListing (listingBytes es)) w
      (.ret (none, 0)) w := by
  have hcount := countEntries_records hes torn_nil _ (Nat.le_refl _)
  rw [List.append_nil] at hcount
  unfold isrCliParseDirectoryListing
  simp only [hcount]
  rw [if_neg (by rwa [List.length_eq_zero_iff])]
  refine .step (r := false) ⟨w.sys, ⟨Or.inr hF, rfl⟩, rfl⟩ ?_
  exact .refl _ _

/-- The parser finds the complete records, whatever follows. -/
theorem exists_parse {es : List IsrCliDirEntry} {rest : List UInt8}
    (hes : ∀ e ∈ es, IsrCliDirEntry.Fits e) (hrest : Torn rest) (w : World) : ∃ parsed,
    ¬ (parsed.1 = none ∧ parsed.2 ≠ 0) ∧ Reaches (machine Faults.none false false)
      (isrCliParseDirectoryListing (listingBytes es ++ rest)) w (.ret parsed) w := by
  have hterm : Terminates (machine Faults.none false false)
      (isrCliParseDirectoryListing (listingBytes es ++ rest))
      (fun parsed v => ¬ (parsed.1 = none ∧ parsed.2 ≠ 0) ∧ v = w) w := by
    refine ensures_isrCliParseDirectoryListing (permits_answered _ _ _) hes hrest ?_ ?_ ?_
    · exact fun _ => ⟨fun h => h.2 rfl, rfl⟩
    · exact fun _ => ⟨fun h => absurd h.1 (by simp), rfl⟩
    · exact fun hf => absurd hf (by decide)
  obtain ⟨parsed, v, hrun, hparsed, rfl⟩ := hterm.exists_ret
  exact ⟨parsed, hparsed, hrun⟩

/-- A client in whose way nothing stands. -/
def occupiedWorld : World := Proc.start (.initial (FS.empty.makeFile [[0x66]])) []

theorem occupied_occupiedWorld : Occupied occupiedWorld.sys.fs := ⟨⟨0, by decide⟩, rfl⟩

/-- What is always reported is a complete listing, and one that the parser has memory
for. -/
theorem MalformedReported.complete {F : Faults} {buf : List UInt8} (hbuf : buf.length < word64)
    (h : MalformedReported F buf) : Complete buf ∧ (F.alloc = false ∨ buf = []) := by
  obtain ⟨es, rest, hes, hrest, rfl⟩ := exists_records buf
  obtain ⟨u, hlisting, hu, -⟩ := @exists_afterListing shortLz4 0 0 0 1 [] clogged occupiedWorld
    (fun _ => True) _ hbuf trivial
  have hocc : Occupied u.sys.fs := by
    rw [hu]
    exact occupied_occupiedWorld
  have hreport := h shortLz4 0 0 0 1 [] clogged false false occupiedWorld u
    (hlisting.of_restrict.of_env fun _ _ _ _ _ => machine_of_none)
  have hcomplete : Complete (listingBytes es ++ rest) := by
    obtain ⟨parsed, hparsed, hparse⟩ := exists_parse hes hrest u
    obtain ⟨v, hrun⟩ := @exists_afterParse shortLz4 0 0 [] u parsed hparsed hocc
    obtain hr | ⟨-, es', hes', hbuf', -⟩ := hreport parsed u
      (hparse.of_env fun _ _ _ _ _ => machine_of_none) 0 v
      (hrun.of_env fun _ _ _ _ _ => machine_of_none)
    · exact absurd hr (by decide)
    · exact ⟨es', hes', hbuf'⟩
  refine ⟨hcomplete, ?_⟩
  by_contra hnot
  rw [not_or, Bool.not_eq_false] at hnot
  obtain ⟨es', hes', heq⟩ := hcomplete
  have hne : es' ≠ [] := by
    rintro rfl
    exact hnot.2 heq
  rw [heq] at hreport
  obtain ⟨v, hrun⟩ := @exists_afterParse shortLz4 0 0 [] u (none, 0) (fun h => h.2 rfl) hocc
  obtain hr | ⟨-, es'', -, hbuf'', hparsed, -⟩ := hreport (none, 0) u
    (reaches_parse_alloc hnot.1 hes' hne u) 0 v (hrun.of_env fun _ _ _ _ _ => machine_of_none)
  · exact absurd hr (by decide)
  · have hnil : es'' = [] := hparsed.symm
    rw [hnil, listingBytes_nil] at hbuf''
    exact hnot.2 (heq.trans hbuf'')

end IsrTransfer
