import IsrTransfer.DownloadParts

/-!
# Which calls of a recursive download fail

A recursive download goes on after an entry that has failed, and what it returns only says
that some entry has.  Here the same program returns the calls that have failed by themselves
(`downloadFailures`), each by the names that lead to it: the download of a file that has not
returned `0`, and a directory whose listing has not been received.  Apart from what it returns
it is the same program (`isrCliDownloadDirectory_eq`), and that returns `-1` exactly if there
is such a call.

The two programs are compared as programs.  A result that is thrown away or turned into another
one is a function that is mapped over the program, and the loop with its accumulator becomes one
that collects (`downloadEntries_eq`); so runs of the one are runs of the other, in any
environment, and nothing has to be said about runs here.
-/

namespace IsrTransfer

open Effect Posix

/-! ## The program -/

section Program

variable (L : Lz4) (fuel : Nat) (flags : UInt8) (blockSize : Nat)

/-- The result that belongs to the calls that have failed. -/
def resultOf (result : Int) (failed : List (List Name)) : Int :=
  if failed = [] then result else -1

/-- One entry of a listing. -/
def entryFailures (download : (remotePath localDir : List UInt8) → Prog (List (List Name)))
    (remotePath localDir : List UInt8) (e : IsrCliDirEntry) : Prog (List (List Name)) := do
  let remoteEntryPath := snprintfPath remotePath e.name isrPathMax
  let localEntryPath := snprintfPath localDir e.name isrPathMax
  if e.isDirectory ≠ 0 then
    let failed ← download remoteEntryPath localEntryPath
    let _ ← noteFailure (resultOf 0 failed) "Failed to download directory: %s\n"
      remoteEntryPath 0
    return failed.map (e.name :: ·)
  else
    let ret ← isrCliDownloadFile L fuel remoteEntryPath localEntryPath flags blockSize
    let _ ← noteFailure ret "Failed to download file: %s\n" remoteEntryPath 0
    return if ret = 0 then [] else [[e.name]]

/-- The loop over the entries of a listing. -/
def listingFailures (download : (remotePath localDir : List UInt8) → Prog (List (List Name)))
    (remotePath localDir : List UInt8) : (entries : List IsrCliDirEntry) →
    Prog (List (List Name))
  | [] => return []
  | e :: entries => do
    let failed ← entryFailures L fuel flags blockSize download remotePath localDir e
    let failed' ← listingFailures download remotePath localDir entries
    return failed ++ failed'

/-- `isr_cli_download_directory`; it returns the calls that have failed by themselves. -/
def downloadFailures : (depth : Nat) → (remotePath localDir : List UInt8) →
    Prog (List (List Name))
  | 0, _, _ => outOfFuel
  | depth + 1, remotePath, localDir => do
    match ← recvConnect remotePath flags blockSize with
    | none => return [[]]
    | some conf =>
      if conf.responseType = isrRecvTypeDirectory then
        match ← fetchEntries localDir conf with
        | none => return [[]]
        | some entries =>
          listingFailures L fuel flags blockSize (downloadFailures depth) remotePath localDir
            entries
      else
        -- no call is made from here that could go on to others
        let ret ← afterConfirmation L fuel flags blockSize depth remotePath localDir conf
        return if ret = 0 then [] else [[]]

end Program

/-! ## It is the same program

`downloadFailures` makes the same calls as `isr_cli_download_directory`, and collects the names
under which they fail where the program only keeps -1.  So the program is a function of it
(`isrCliDownloadDirectory_eq`), and what is shown of the one is known of the other. -/

section Equal

variable {L : Lz4} {fuel : Nat} {flags : UInt8} {blockSize : Nat}
variable {remotePath localDir : List UInt8}

/-- The result so far only matters at the end. -/
theorem noteFailure_eq (ret : Int) (format : String) (path : List UInt8) (result : Int) :
    noteFailure ret format path result =
      (fun _ => if ret = 0 then result else -1) <$> noteFailure ret format path 0 := by
  unfold noteFailure
  by_cases h : ret = 0
  · rw [if_neg (not_not.mpr h), if_neg (not_not.mpr h), if_pos h]
    rfl
  · rw [if_pos h, if_pos h, if_neg h]
    rfl

theorem eq_nil_of_resultOf {failed : List (List Name)} (h : resultOf 0 failed = 0) :
    failed = [] := by
  by_contra hne
  rw [resultOf, if_neg hne] at h
  exact absurd h (by decide)

theorem resultOf_append (failed failed' : List (List Name)) (result : Int) :
    resultOf (resultOf result failed) failed' = resultOf result (failed ++ failed') := by
  unfold resultOf
  cases failed' with
  | nil => simp
  | cons d failed' => simp

theorem resultOf_map (n : Name) (failed : List (List Name)) (result : Int) :
    resultOf result (failed.map (n :: ·)) = resultOf result failed := by
  unfold resultOf
  cases failed <;> rfl

theorem resultOf_ite {ret result : Int} {d : List Name} :
    resultOf result (if ret = 0 then [] else [d]) = if ret = 0 then result else -1 := by
  unfold resultOf
  split <;> simp

theorem if_resultOf (failed : List (List Name)) (result : Int) :
    (if resultOf 0 failed = 0 then result else -1) = resultOf result failed := by
  unfold resultOf
  split <;> simp

theorem downloadEntries_eq {downloadDirectory : List UInt8 → List UInt8 → Prog Int}
    {download : List UInt8 → List UInt8 → Prog (List (List Name))}
    (h : ∀ remotePath localDir,
      downloadDirectory remotePath localDir = resultOf 0 <$> download remotePath localDir)
    (es : List IsrCliDirEntry) : ∀ result,
    downloadEntries L fuel downloadDirectory remotePath localDir flags blockSize es result =
      resultOf result <$>
        listingFailures L fuel flags blockSize download remotePath localDir es := by
  induction es with
  | nil => exact fun _ => rfl
  | cons e es ih =>
    intro result
    rw [downloadEntries, listingFailures, entryFailures]
    by_cases he : e.isDirectory ≠ 0
    · rw [if_pos he, if_pos he, h]
      simp only [ih, noteFailure_eq _ _ _ result, map_eq_pure_bind, bind_assoc, pure_bind]
      refine bind_congr fun failed => bind_congr fun _ => bind_congr fun failed' => ?_
      rw [if_resultOf, ← resultOf_append (failed.map _), resultOf_map]
    · rw [if_neg he, if_neg he]
      simp only [ih, noteFailure_eq _ _ _ result, map_eq_pure_bind, bind_assoc, pure_bind]
      refine bind_congr fun ret => bind_congr fun _ => bind_congr fun failed' => ?_
      rw [← resultOf_append, resultOf_ite]

/-- What a download of a file returns. -/
theorem ensures_isrCliDownloadFile_status {localPath : List UInt8} {E : Env (NetOp OsOp) Unit}
    {s : Unit} : Ensures E Anything
      (isrCliDownloadFile L fuel remotePath localPath flags blockSize)
      (fun r _ => (if r = 0 then 0 else -1) = r) s := by
  have hreport : ∀ {result : Int} {failed mismatch : String} {s : Unit},
      Ensures E Anything (reportReceived result failed mismatch)
        (fun r _ => (if r = 0 then 0 else -1) = r) s := by
    intro result failed mismatch s
    unfold reportReceived
    split
    · exact ensures_bind_anything fun _ _ => rfl
    · split
      · exact ensures_bind_anything fun _ _ => rfl
      · rfl
  have hinto : ∀ {n : Nat} {s : Unit}, Ensures E Anything
      (receiveInto L fuel flags blockSize n localPath "  Failed to receive file.\n"
        "  Checksum mismatch!\n")
      (fun r _ => (if r = 0 then 0 else -1) = r) s := by
    intro n s
    refine ensures_bind_anything fun fd _ => ?_
    cases fd with
    | none => exact ensures_bind_anything fun _ _ => ensures_bind_anything fun _ _ => rfl
    | some fd =>
      refine ensures_bind_anything fun result _ => ensures_bind_anything fun _ _ => ?_
      exact ensures_bind_anything fun _ _ => hreport
  unfold isrCliDownloadFile
  refine ensures_bind_anything fun conf _ => ?_
  cases conf with
  | none => rfl
  | some conf =>
    simp only
    split
    · exact ensures_bind_anything fun _ _ => ensures_bind_anything fun _ _ => rfl
    split
    · exact ensures_bind_anything fun _ _ => ensures_bind_anything fun _ _ => rfl
    refine ensures_bind_anything fun go _ => ?_
    split
    · exact ensures_bind_anything fun _ _ => rfl
    split
    · exact ensures_bind_anything fun _ _ => hinto
    · exact hinto

/-- **The result tells whether a call has failed.**  So a run of the program is one of
`downloadFailures`, with a list of failures that is empty if the program returns 0. -/
theorem isrCliDownloadDirectory_eq (depth : Nat) : ∀ remotePath localDir,
    isrCliDownloadDirectory L fuel flags blockSize depth remotePath localDir =
      resultOf 0 <$> downloadFailures L fuel flags blockSize depth remotePath localDir := by
  induction depth with
  | zero =>
    intro remotePath localDir
    rw [isrCliDownloadDirectory, downloadFailures, map_eq_pure_bind]
    unfold outOfFuel
    rw [bind_assoc]
    exact bind_congr fun e => e.elim
  | succ depth ih =>
    intro remotePath localDir
    rw [isrCliDownloadDirectory_succ, downloadFailures, map_eq_pure_bind, bind_assoc]
    refine bind_congr fun conf => ?_
    cases conf with
    | none => rfl
    | some conf =>
      rw [Option.elim_some]
      simp only
      by_cases hdir : conf.responseType = isrRecvTypeDirectory
      · rw [if_pos hdir, afterConfirmation, hdir, if_neg (by decide), if_neg (by decide),
          if_neg (by decide), if_neg (not_not.mpr rfl), bind_assoc]
        refine bind_congr fun entries => ?_
        cases entries with
        | none => rfl
        | some entries =>
          rw [afterFetch, Option.elim_some]
          simp only [← map_eq_pure_bind]
          exact downloadEntries_eq ih entries 0
      · rw [if_neg hdir]
        simp only [bind_assoc, pure_bind, resultOf_ite]
        rw [← map_eq_pure_bind]
        refine (map_eq_self fun E => ?_).symm
        unfold afterConfirmation
        split
        · exact ensures_bind_anything fun _ _ => ensures_bind_anything fun _ _ => rfl
        split
        · exact ensures_bind_anything fun _ _ => ensures_bind_anything fun _ _ => rfl
        split
        · exact ensures_bind_anything fun _ _ => ensures_isrCliDownloadFile_status
        exact ensures_bind_anything fun _ _ => ensures_bind_anything fun _ _ => rfl

end Equal

end IsrTransfer
