import IsrTransfer.DownloadRuns
import IsrTransfer.MkdirRecursive

/-!
# A recursive download, one call at a time

What `isr_cli_download_directory` does on one connection, and where it calls itself.  It
asks for a path, and the confirmation decides (`afterConfirmation`): a directory is fetched
(`fetchEntries`), and then there is a loop over the entries of its listing, which is the one
place where the server's names are used.  What is fetched from a server that sends some
bytes is a matter of these bytes (`Fetched`).

So a property of all the calls is shown once for the recursion.  A caller says which calls
are made (`V`, which may depend on how many are left) and what is known about what the
server sends (`I`), and shows for one call what it makes of its entries (`DirectoryCases`).

In the jail of the client `V` are the visits of a server with certain names; for the depth of the
recursion it says how many directories there are below the path.  Where the results of the calls
are to be put together, which such a rule does not do, the parts are used by themselves: a
download that mirrors a tree is followed through `fetchEntries` and the loop.
-/

namespace IsrTransfer

open Effect Posix

variable {F : Faults} {lossy eof : Bool}
variable {A : Guard (NetOp OsOp) World} {w : World}

/-! ## Listings that are received -/

/-- On a connection on which the server sends `input`, the client gets the listing `buf`:
the length is right, and so is the checksum. -/
structure Lists (input buf : List UInt8) : Prop where
  type : (confirmationOf input).responseType = isrRecvTypeDirectory
  length : (confirmationOf input).effectiveLength + 8 ≤
    (input.drop sizeofRecvConfirmation).length
  listing : buf = (input.drop sizeofRecvConfirmation).take (confirmationOf input).effectiveLength
  checksum : ofBe (((input.drop sizeofRecvConfirmation).drop
    (confirmationOf input).effectiveLength).take 8) = isrCountByteValues buf

/-- What a listing with its checksum leads to. -/
theorem lists_of_verified {s : Sys} {input command : List UInt8}
    (htype : (confirmationOf input).responseType = isrRecvTypeDirectory)
    (hlen : (confirmationOf input).effectiveLength + 8 ≤
      ((confirmedWorld s input command).sent [isrRecvGo]).rx.length)
    (hsum : ofBe ((((confirmedWorld s input command).sent [isrRecvGo]).rx.drop
      (confirmationOf input).effectiveLength).take 8) = isrCountByteValues
        (((confirmedWorld s input command).sent [isrRecvGo]).rx.take
          (confirmationOf input).effectiveLength)) :
    Lists input (((confirmedWorld s input command).sent [isrRecvGo]).rx.take
      (confirmationOf input).effectiveLength) :=
  ⟨htype, hlen, rfl, hsum⟩

/-! ## The call in parts

`isr_cli_download_directory` connects and reads the confirmation; fetches the listing, parses it
and makes the local directory; and goes through the entries.  The second part is where it can
fail, and it does not depend on the recursion: there is one rule for it
(`ensures_fetchEntries`), in terms of what the server has sent. -/

section Directory

variable {L : Lz4} {fuel : Nat} {flags : UInt8} {blockSize depth : Nat}
  {remotePath localDir : List UInt8}

/-- The local directory is made for the entries that have been parsed. -/
def entriesInto (localDir : List UInt8) (parsed : Option (List IsrCliDirEntry) × Nat) :
    Prog (Option (List IsrCliDirEntry)) := do
  if parsed.1 = none ∧ parsed.2 ≠ 0 then
    complain "Failed to parse directory listing\n" []
    return none
  let _ ← isrMkdirRecursive localDir
  return some (parsed.1.getD [])

/-- The part of `isr_cli_download_directory` between the confirmation of a directory and the
loop over its entries; `none` if it fails. -/
def fetchEntries (localDir : List UInt8) (conf : IsrRecvConfirmation) :
    Prog (Option (List IsrCliDirEntry)) := do
  if (← sendGo) = -1 then
    netClose
    return none
  let listing ← recvVerifiedListing conf.effectiveLength
  netClose
  match listing with
  | none => return none
  | some buf => isrCliParseDirectoryListing buf >>= entriesInto localDir

/-- The loop over the entries, if there are any. -/
def afterFetch (L : Lz4) (fuel : Nat) (flags : UInt8) (blockSize depth : Nat)
    (remotePath localDir : List UInt8) (entries : Option (List IsrCliDirEntry)) : Prog Int :=
  entries.elim (pure (-1)) fun es =>
    downloadEntries L fuel (isrCliDownloadDirectory L fuel flags blockSize depth) remotePath
      localDir flags blockSize es 0

/-- The part of `isr_cli_download_directory` that follows the confirmation. -/
def afterConfirmation (L : Lz4) (fuel : Nat) (flags : UInt8) (blockSize depth : Nat)
    (remotePath localDir : List UInt8) (conf : IsrRecvConfirmation) : Prog Int := do
  if conf.responseType = isrRecvTypeNotFound then
    complain "Directory not found on server: %s\n" [.str remotePath]
    netClose
    return -1
  else if conf.responseType = isrResultOtherFailure then
    complain "Server error for path: %s\n" [.str remotePath]
    netClose
    return -1
  else if conf.responseType = isrRecvTypeFile then
    netClose
    isrCliDownloadFile L fuel remotePath
      (snprintfPath localDir (basename remotePath) isrPathMax) flags blockSize
  else if conf.responseType ≠ isrRecvTypeDirectory then
    complain "Unexpected response type: 0x%02x\n" [.num conf.responseType.toNat]
    netClose
    return -1
  else
    fetchEntries localDir conf >>= afterFetch L fuel flags blockSize depth remotePath localDir

theorem fetchEntries_bind (conf : IsrRecvConfirmation) :
    (do
      if (← sendGo) = -1 then
        netClose
        return -1
      let listing ← recvVerifiedListing conf.effectiveLength
      netClose
      listing.elim (pure (-1)) (afterListing L fuel flags blockSize depth remotePath localDir)) =
    fetchEntries localDir conf >>= afterFetch L fuel flags blockSize depth remotePath localDir := by
  unfold fetchEntries
  rw [bind_assoc]
  refine bind_congr fun go => ?_
  split
  · rfl
  rw [bind_assoc]
  refine bind_congr fun listing => ?_
  rw [bind_assoc]
  refine bind_congr fun _ => ?_
  cases listing with
  | none => rfl
  | some buf =>
    simp only [Option.elim_some]
    rw [afterListing, bind_assoc]
    refine bind_congr fun parsed => ?_
    unfold afterParse entriesInto
    split
    · rfl
    · rw [bind_assoc]
      rfl

theorem isrCliDownloadDirectory_succ :
    isrCliDownloadDirectory L fuel flags blockSize (depth + 1) remotePath localDir =
      recvConnect remotePath flags blockSize >>= fun conf => conf.elim (pure (-1))
        (afterConfirmation L fuel flags blockSize depth remotePath localDir) := by
  rw [isrCliDownloadDirectory]
  refine bind_congr fun conf => ?_
  cases conf with
  | none => rfl
  | some conf =>
    simp only [Option.elim_some]
    unfold afterConfirmation
    rw [← fetchEntries_bind]
    split
    · rfl
    split
    · rfl
    split
    · rfl
    split
    · rfl
    · refine bind_congr fun go => ?_
      split
      · rfl
      refine bind_congr fun listing => bind_congr fun _ => ?_
      cases listing <;> rfl

/-- What is fetched from a server that sends `input`: the entries of its listing.  It may be
none of them, if there is no memory; without failures it is all of them. -/
structure Fetched (F : Faults) (lossy : Bool) (input : List UInt8)
    (r : Option (List IsrCliDirEntry)) : Prop where
  listed : ∀ fetched, r = some fetched → ∃ es rest, Lists input (listingBytes es ++ rest) ∧
    (∀ e ∈ es, IsrCliDirEntry.Fits e) ∧ Torn rest ∧ (fetched = es ∨ F.alloc = true ∧ fetched = [])
  all : F.alloc = false → lossy = false → ∀ es rest, Lists input (listingBytes es ++ rest) →
    (∀ e ∈ es, IsrCliDirEntry.Fits e) → Torn rest → r = some es

theorem Fetched.of_none {input : List UInt8} (h : F.alloc = false → lossy = false → ∀ buf,
    ¬ Lists input buf) : Fetched F lossy input none where
  listed _ h := absurd h (by simp)
  all h1 h2 _ _ hlists := absurd hlists (h h1 h2 _)

/-- The parser finds the records of the listing, and the directory is made. -/
theorem ensures_fetched (hP : Permits A)
    (hmkdir : ∀ v, Ensures (machine F lossy eof) A (isrMkdirRecursive localDir) (fun _ _ => True) v)
    {input buf : List UInt8} (hlists : Lists input buf) :
    Ensures (machine F lossy eof) A (isrCliParseDirectoryListing buf >>= entriesInto localDir)
      (fun r _ => Fetched F lossy input r) w := by
  have hmade : ∀ {parsed : Option (List IsrCliDirEntry) × Nat} {v : World},
      ¬ (parsed.1 = none ∧ parsed.2 ≠ 0) → Fetched F lossy input (some (parsed.1.getD [])) →
      Ensures (machine F lossy eof) A (entriesInto localDir parsed)
        (fun r _ => Fetched F lossy input r) v := by
    intro parsed v hparsed hfetched
    unfold entriesInto
    rw [if_neg hparsed, ensures_bind]
    exact (hmkdir v).mono fun _ _ _ => hfetched
  rw [ensures_bind]
  obtain ⟨es, rest, hes, hrest, rfl⟩ := exists_records buf
  have hfetched : Fetched F lossy input (some es) := by
    refine ⟨?_, ?_⟩
    · rintro _ hes'
      obtain rfl := Option.some.inj hes'
      exact ⟨es, rest, hlists, hes, hrest, Or.inl rfl⟩
    · intro _ _ es' rest' hlists' hes' hrest'
      have hsame : listingBytes es ++ rest = listingBytes es' ++ rest' :=
        hlists.listing.trans hlists'.listing.symm
      have hle := prefix_of_listingBytes hes hes' hrest hsame
      have hge := prefix_of_listingBytes hes' hes hrest' hsame.symm
      rw [hge.eq_of_length_le hle.length_le]
  refine ensures_isrCliParseDirectoryListing hP hes hrest ?_ ?_ ?_
  · rintro rfl
    exact hmade (by simp) hfetched
  · exact fun _ => hmade (by simp) hfetched
  · intro hf
    refine hmade (by simp) ⟨?_, fun h => ?_⟩
    · rintro _ hnil
      obtain rfl := Option.some.inj hnil
      exact ⟨es, rest, hlists, hes, hrest, Or.inr ⟨hf, rfl⟩⟩
    · rw [h] at hf
      exact absurd hf (by decide)

/-- The rule for what comes before the loop. -/
theorem ensures_fetchEntries (hP : Permits A)
    (hrecv : ∀ v room len, 0 < len → A v (.recv room len))
    (hmkdir : ∀ v, Ensures (machine F lossy eof) A (isrMkdirRecursive localDir) (fun _ _ => True) v)
    {s : Sys} {input command : List UInt8}
    (htype : (confirmationOf input).responseType = isrRecvTypeDirectory) :
    Ensures (machine F lossy eof) A (fetchEntries localDir (confirmationOf input))
      (fun r _ => Fetched F lossy input r) (confirmedWorld s input command) := by
  have hrx : ((confirmedWorld s input command).sent [isrRecvGo]).rx =
      input.drop sizeofRecvConfirmation := rfl
  unfold fetchEntries
  rw [ensures_bind]
  refine ensures_sendGo hP ?_ fun hl v _ => ?_
  · rw [if_neg (by decide), ensures_bind]
    have hnone : ∀ {v : World}, Fetched F lossy input none →
        Ensures (machine F lossy eof) A (netClose >>= fun _ => pure none)
          (fun r _ => Fetched F lossy input r) v := by
      intro v h
      rw [ensures_bind, ensures_netClose]
      exact ⟨hP.close _, h⟩
    refine ensures_recvVerifiedListing hP (fun _ _ _ _ hlen _ _ => hrecv _ _ _ hlen) ?_ ?_ ?_
    · -- the listing is there
      intro hlen hsum
      rw [ensures_bind, ensures_netClose]
      refine ⟨hP.close _, ?_⟩
      exact ensures_fetched hP hmkdir (lists_of_verified htype hlen hsum)
    · intro hlen hsum
      refine hnone (.of_none fun _ _ buf hlists => hsum ?_)
      rw [hrx, hlists.checksum, hlists.listing]
    · intro k hk hshort hl
      refine hnone (.of_none fun h1 h2 buf hlists => ?_)
      have hlong := hlists.length
      rw [hrx] at hk hl
      rcases hl with hl | hl | ⟨-, hl⟩
      · exact absurd (h2.symm.trans hl) (by decide)
      · exact absurd (h1.symm.trans hl) (by decide)
      · omega
  · rw [if_pos rfl, ensures_bind, ensures_netClose]
    exact ⟨hP.close _, .of_none fun _ h2 => absurd (h2.symm.trans hl) (by decide)⟩

end Directory

/-! ## The recursion -/

section Recursion

variable {I : World → Prop} {L : Lz4} {fuel : Nat} {flags : UInt8} {blockSize : Nat}
  {V : Nat → List UInt8 → List UInt8 → Prop}

/-- What has to be shown about `isr_cli_download_directory`.  `V depth remotePath localDir`
says that there is such a call, with `depth` more of them left. -/
structure DirectoryCases (F : Faults) (lossy eof : Bool) (A : Guard (NetOp OsOp) World)
    (I : World → Prop) (L : Lz4) (fuel : Nat) (flags : UInt8) (blockSize : Nat)
    (V : Nat → List UInt8 → List UInt8 → Prop) : Prop extends Permits A where
  connect : ∀ w, A w .connect
  recv : ∀ w room len, 0 < len → A w (.recv room len)
  spin : ∀ remote localDir w, V 0 remote localDir → A w (.sys .spin)
  mkdir : ∀ depth remote localDir w, V (depth + 1) remote localDir →
    Ensures (machine F lossy eof) A (isrMkdirRecursive localDir) (fun _ _ => True) w
  /-- There is a file in the place of the directory. -/
  redirected : ∀ depth remote localDir w, V (depth + 1) remote localDir → I w →
    Ensures (Env.restrict (machine F lossy eof) I) A
      (isrCliDownloadFile L fuel remote (snprintfPath localDir (basename remote) isrPathMax)
        flags blockSize) (fun _ v => I v) w
  /-- The listing has an entry. -/
  entry : ∀ depth remote localDir s input es rest e, V (depth + 1) remote localDir →
    I (confirmedWorld s input (recvCommandBytes remote flags blockSize)) →
    Lists input (listingBytes es ++ rest) → (∀ e ∈ es, IsrCliDirEntry.Fits e) → Torn rest →
    e ∈ es →
    (e.isDirectory ≠ 0 → V depth (snprintfPath remote e.name isrPathMax)
      (snprintfPath localDir e.name isrPathMax)) ∧
    (e.isDirectory = 0 → ∀ w, I w → Ensures (Env.restrict (machine F lossy eof) I) A
      (isrCliDownloadFile L fuel (snprintfPath remote e.name isrPathMax)
        (snprintfPath localDir e.name isrPathMax) flags blockSize) (fun _ v => I v) w)

/-- The loop over the entries of a listing, each of which is downloaded as it should be. -/
theorem ensures_downloadEntries (hP : Permits A) {depth : Nat} {remote localDir : List UInt8}
    (es : List IsrCliDirEntry) :
    (∀ e ∈ es, ∀ w, I w → Ensures (Env.restrict (machine F lossy eof) I) A
      (downloadEntry L fuel flags blockSize depth remote localDir e) (fun _ v => I v) w) →
    ∀ {result : Int} {w : World}, I w → Ensures (Env.restrict (machine F lossy eof) I) A
      (downloadEntries L fuel (isrCliDownloadDirectory L fuel flags blockSize depth) remote
        localDir flags blockSize es result) (fun _ v => I v) w := by
  induction es with
  | nil => exact fun _ {_ _} hw => hw
  | cons e es ih =>
    intro hes result w hw
    obtain ⟨he, hes⟩ := List.forall_mem_cons.mp hes
    obtain ⟨format, path, heq⟩ := @downloadEntries_cons L fuel flags blockSize depth remote
      localDir e es result
    rw [heq, ensures_bind, ensures_bind]
    refine (he w hw).mono fun ret v hv => ?_
    exact Ensures.restrict ((ensures_noteFailure hP).mono fun _ _ _ hu => ih hes hu) hv

/-- The rule for `isr_cli_download_directory`. -/
theorem ensures_isrCliDownloadDirectory
    (h : DirectoryCases F lossy eof A I L fuel flags blockSize V) (depth : Nat) :
    ∀ {remote localDir : List UInt8} {w : World}, V depth remote localDir → I w →
    Ensures (Env.restrict (machine F lossy eof) I) A
      (isrCliDownloadDirectory L fuel flags blockSize depth remote localDir)
      (fun _ v => I v) w := by
  have hP := h.toPermits
  induction depth with
  | zero => exact fun hV hw => Ensures.restrict (ensures_outOfFuel.mpr (h.spin _ _ _ hV)) hw
  | succ depth ih =>
    intro remote localDir w hV hw
    rw [isrCliDownloadDirectory_succ, ensures_bind]
    refine Ensures.restrict (ensures_recvConnect hP ⟨h.connect _, fun _ _ _ hv => hv,
      fun _ _ _ _ _ hv => hv, fun _ k hk _ => h.recv _ _ _ (by omega),
      fun _ _ _ _ _ _ _ hv => hv, fun input _ hv => ?_⟩) hw
    change Ensures _ _ (afterConfirmation L fuel flags blockSize depth remote localDir
      (confirmationOf input)) _
      (confirmedWorld w.sys input (recvCommandBytes remote flags blockSize))
    have hend : ∀ {format : String} {args : List Arg}, format ∉ failureFormats →
        Ensures (Env.restrict (machine F lossy eof) I) A
          (complain format args >>= fun _ => netClose >>= fun _ => pure (-1)) (fun _ v => I v)
          (confirmedWorld w.sys input (recvCommandBytes remote flags blockSize)) :=
      fun hformat => Ensures.restrict (ensures_complainClose hP hformat fun _ _ hv => hv) hv
    unfold afterConfirmation
    split
    · exact hend (by decide)
    split
    · exact hend (by decide)
    split
    · -- a file where a directory has been asked for
      rw [ensures_bind]
      refine Ensures.restrict (ensures_netClose.mpr ⟨hP.close _, fun hv => ?_⟩) hv
      exact h.redirected depth remote localDir _ hV hv
    split
    · exact hend (by decide)
    rename_i htype
    rw [ensures_bind]
    have hmkdir := fun v => h.mkdir depth remote localDir v hV
    refine Ensures.restrict ((ensures_fetchEntries hP h.recv hmkdir (not_not.mp htype)).mono
      fun r v hr hu => ?_) hv
    cases r with
    | none => exact hu
    | some fetched =>
      obtain ⟨es, rest, hlists, hes, hrest, hfetched⟩ := hr.listed fetched rfl
      refine ensures_downloadEntries hP fetched (fun e he v hv' => ?_) hu
      have hmem : e ∈ es := by
        rcases hfetched with rfl | ⟨-, rfl⟩
        · exact he
        · exact absurd he List.not_mem_nil
      obtain ⟨hdir, hfile⟩ :=
        h.entry depth remote localDir _ _ es rest e hV hv hlists hes hrest hmem
      unfold downloadEntry
      split
      case isTrue he' => exact ih (hdir he') hv'
      case isFalse he' => exact hfile (not_not.mp he') v hv'

end Recursion

end IsrTransfer
