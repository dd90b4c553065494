import IsrTransfer.DownloadFailures

/-!
# Which calls of a recursive upload fail

A recursive upload goes on after an entry that has failed, as a recursive download does, and
the same is done for it: `uploadFailures` is the program that returns the calls that have
failed by themselves, each by the names that lead to it.  These are an entry that cannot be
looked at, a file whose upload has not returned `0`, and a directory that the server has not
made or that cannot be listed.

A directory that the server has not made is not uploaded at all: the calls for its entries are
not made, and it counts as one call that has failed.  Of the names that `readdir` gives only `.`
and `..` are passed over.
-/

namespace IsrTransfer

open Effect Posix

/-! ## The program -/

section Program

variable (L : Lz4) (fuel : Nat) (flags : UInt8) (blockSize : Nat)

/-- One entry of the local directory. -/
def uploadEntry (upload : (remotePath localDir : List UInt8) → Prog (List (List Name)))
    (remotePath localDir : List UInt8) (name : Name) : Prog (List (List Name)) := do
  let localEntry := snprintfPath localDir name isrPathMax
  let remoteEntry := snprintfPath remotePath name isrPathMax
  match ← isrStat localEntry with
  | none =>
    complain "Error: cannot stat '%s'\n" [.str localEntry]
    return [[name]]
  | some (isDir, _) =>
    if isDir then
      let failed ← upload remoteEntry localEntry
      let _ ← noteFailure (resultOf 0 failed) "Failed to upload directory: %s\n" localEntry 0
      return failed.map (name :: ·)
    else
      let ret ← isrCliSendFile L fuel remoteEntry localEntry flags blockSize
      let _ ← noteFailure ret "Failed to upload file: %s\n" localEntry 0
      return if ret = 0 then [] else [[name]]

/-- The loop over the entries of the local directory. -/
def uploadEntries (upload : (remotePath localDir : List UInt8) → Prog (List (List Name)))
    (remotePath localDir : List UInt8) : (names : List Name) → Prog (List (List Name))
  | [] => return []
  | name :: names =>
    if name = dot ∨ name = dotdot then uploadEntries upload remotePath localDir names
    else do
      let failed ← uploadEntry L fuel flags blockSize upload remotePath localDir name
      let failed' ← uploadEntries upload remotePath localDir names
      return failed ++ failed'

/-- `isr_cli_send_directory`; it returns the calls that have failed by themselves. -/
def uploadFailures : (depth : Nat) → (remotePath localDir : List UInt8) →
    Prog (List (List Name))
  | 0, _, _ => outOfFuel
  | depth + 1, remotePath, localDir => do
    if (← isrCliSendMkdir remotePath) ≠ 0 then
      complain "Failed to create remote directory: %s\n" [.str remotePath]
      return [[]]
    match ← sysCall (.opendir localDir) with
    | none =>
      complain "Error: cannot open directory '%s'\n" [.str localDir]
      return [[]]
    | some names =>
      uploadEntries L fuel flags blockSize (uploadFailures depth) remotePath localDir names

end Program

/-! ## It is the same program -/

section Equal

variable {L : Lz4} {fuel : Nat} {flags : UInt8} {blockSize : Nat}
variable {remotePath localDir : List UInt8}

/-- The loop. -/
theorem sendEntriesOf_eq {sendDirectory : List UInt8 → List UInt8 → Prog Int}
    {upload : List UInt8 → List UInt8 → Prog (List (List Name))}
    (h : ∀ remotePath localDir,
      sendDirectory remotePath localDir = resultOf 0 <$> upload remotePath localDir)
    (names : List Name) : ∀ result,
    sendEntriesOf L fuel sendDirectory remotePath localDir flags blockSize names result =
      resultOf result <$>
        uploadEntries L fuel flags blockSize upload remotePath localDir names := by
  induction names with
  | nil => exact fun _ => rfl
  | cons name names ih =>
    intro result
    rw [sendEntriesOf, uploadEntries]
    by_cases hdots : name = dot ∨ name = dotdot
    · rw [if_pos hdots, if_pos hdots, ih]
    · rw [if_neg hdots, if_neg hdots, uploadEntry]
      simp only [map_eq_pure_bind, bind_assoc]
      refine bind_congr fun st => ?_
      rcases st with - | ⟨isDir, size⟩
      · simp only [ih, map_eq_pure_bind, bind_assoc, pure_bind]
        refine bind_congr fun _ => bind_congr fun failed' => ?_
        rw [← resultOf_append]
        rfl
      · cases isDir with
        | true =>
          simp only [if_true, h, ih, noteFailure_eq _ _ _ result, map_eq_pure_bind, bind_assoc,
            pure_bind]
          refine bind_congr fun failed => bind_congr fun _ => bind_congr fun failed' => ?_
          rw [if_resultOf, ← resultOf_append (failed.map _), resultOf_map]
        | false =>
          simp only [Bool.false_eq_true, if_false, ih, noteFailure_eq _ _ _ result,
            map_eq_pure_bind, bind_assoc, pure_bind]
          refine bind_congr fun ret => bind_congr fun _ => bind_congr fun failed' => ?_
          rw [← resultOf_append, resultOf_ite]

/-- **The result tells whether a call has failed.**  So a run of the program is one of
`uploadFailures`, with a list of failures that is empty if the program returns 0. -/
theorem isrCliSendDirectory_eq (depth : Nat) : ∀ remotePath localDir,
    isrCliSendDirectory L fuel flags blockSize depth remotePath localDir =
      resultOf 0 <$> uploadFailures L fuel flags blockSize depth remotePath localDir := by
  induction depth with
  | zero =>
    intro remotePath localDir
    rw [isrCliSendDirectory, uploadFailures, map_eq_pure_bind]
    unfold outOfFuel
    rw [bind_assoc]
    exact bind_congr fun e => e.elim
  | succ depth ih =>
    intro remotePath localDir
    rw [isrCliSendDirectory, uploadFailures, map_eq_pure_bind, bind_assoc]
    refine bind_congr fun ret => ?_
    by_cases hret : ret ≠ 0
    · rw [if_pos hret, if_pos hret]
      rfl
    · rw [if_neg hret, if_neg hret, bind_assoc]
      refine bind_congr fun listed => ?_
      cases listed with
      | none => rfl
      | some names =>
        simp only [← map_eq_pure_bind]
        exact sendEntriesOf_eq ih names 0

end Equal

end IsrTransfer
