import IsrTransfer.Posix.Machine

/-!
# Open files

What an open for writing has done, and what is in the file after something has been written to
it.  The inode that was opened is the only one whose bytes change; a file that was there is
emptied, whatever comes afterwards.

`Opened s k i fd s'` records the result of a successful open: `s'` is `s` with the file at `k`,
whose inode is `i`, and `fd` refers to it.  Everything that is said of writes is said of an opened
file.  Its contents are the bytes written (`Opened.contents_write`), and another file has the
bytes it had, unless it is the same inode under another name (`Opened.contents_other`): a hard
link to the destination changes with it.  Where the file system has no hard links below a
directory that exception is empty, which is what the results about whole trees rest on.
-/

namespace IsrTransfer
namespace Posix

namespace Sys

variable {s s' : Sys} {path : List UInt8} {fd : Fd}

theorem openWrite_none (h : (s.openWrite path).1 = none) : (s.openWrite path).2 = s := by
  unfold openWrite at h ⊢
  split at h
  · rfl
  · split at h
    · exact absurd h (by simp [newFd])
    · split at h
      · exact absurd h (by simp [newFd])
      · rename_i hno
        rw [if_neg hno]
    · rfl

theorem openRead_none (h : (s.openRead path).1 = none) : (s.openRead path).2 = s := by
  unfold openRead at h ⊢
  split at h
  · rfl
  · split at h
    · exact absurd h (by simp [newFd])
    · exact absurd h (by simp [newFd])
    · rfl

/-- An open for reading takes an entry in the table of open files. -/
theorem openRead_cases (s : Sys) (path : List UInt8) :
    s.openRead path = (none, s) ∨ ∃ ino, s.openRead path = s.newFd ino := by
  unfold openRead
  split
  · exact Or.inl rfl
  · split
    · exact Or.inr ⟨_, rfl⟩
    · exact Or.inr ⟨_, rfl⟩
    · exact Or.inl rfl

theorem openRead_script (s : Sys) (path : List UInt8) :
    (s.openRead path).2.script = s.script := by
  rcases openRead_cases s path with h | ⟨ino, h⟩
  · rw [h]
  · rw [h]
    rfl

/-- A file that is there can be opened. -/
theorem openRead_file {l : Loc} {i : Nat} (hl : s.resolve path = some l)
    (hi : s.fs.node l = some (.file i)) : s.openRead path = s.newFd (some i) := by
  unfold openRead
  rw [hl]
  simp only [hi]

/-- `s'` is `s` with the file at `k`, which has the inode `i`, opened for writing. -/
structure Opened (s : Sys) (k : Loc) (i : Nat) (fd : Fd) (s' : Sys) : Prop where
  fd_eq : fd = ⟨some i, s.nextFd⟩
  grows : s.fs.Grows s'.fs
  node : ∀ l, s'.fs.node l = if l = k then some (.file i) else s.fs.node l
  /-- The file was there, or it is new. -/
  before : s.fs.node k = some (.file i) ∨ (s.fs.node k = none ∧ i = s.fs.fresh)
  data : ∀ j, s'.fs.data j = if j = i then [] else s.fs.data j
  pos : s'.pos s.nextFd = 0
  cwd : s'.cwd = s.cwd
  script : s'.script = s.script
  printed : s'.printed = s.printed
  errors : s'.errors = s.errors

theorem opened_of_openWrite (h : s.openWrite path = (some fd, s')) :
    ∃ k i, s.resolve path = some k ∧ Opened s k i fd s' := by
  unfold openWrite at h
  cases hk : s.resolve path with
  | none =>
    rw [hk] at h
    exact absurd (congrArg Prod.fst h) (by simp)
  | some k =>
    rw [hk] at h
    simp only at h
    split at h
    · rename_i i hi
      obtain ⟨hfd, rfl⟩ := Prod.mk.inj h
      obtain rfl := Option.some.inj hfd
      refine ⟨k, i, rfl, rfl, FS.grows_setData _ _ _, fun l => ?_, Or.inl hi, fun j => rfl,
        if_pos rfl, rfl, rfl, rfl, rfl⟩
      change s.fs.node l = _
      split
      · rename_i hl
        rw [hl, hi]
      · rfl
    · rename_i hno
      split at h
      · rename_i hins
        obtain ⟨hfd, rfl⟩ := Prod.mk.inj h
        obtain rfl := Option.some.inj hfd
        refine ⟨k, s.fs.fresh, rfl, rfl, FS.grows_makeFile _ _, fun l => ?_, Or.inr ⟨hno, rfl⟩,
          fun j => ?_, if_pos rfl, rfl, rfl, rfl, rfl⟩
        · simp only [FS.makeFile, dif_pos hins, FS.node_setData, FS.node_insert]
        · simp only [FS.makeFile, dif_pos hins, FS.data_setData, FS.data_insert]
      · exact absurd (congrArg Prod.fst h) (by simp)
    · exact absurd (congrArg Prod.fst h) (by simp)

section Opened

variable {k : Loc} {i : Nat}

/-- What has been written to a file that was opened is what is in it. -/
theorem Opened.data_write (h : Opened s k i fd s') (bs : List UInt8) (j : Nat) :
    (s'.write fd bs).fs.data j = if j = i then bs else s.fs.data j := by
  unfold write
  rw [h.fd_eq]
  simp only
  rw [FS.data_setData, h.data i, if_pos rfl, h.pos]
  split
  · exact splice_length [] bs
  · rename_i hj
    rw [h.data j, if_neg hj]

theorem write_node (s : Sys) (fd : Fd) (bs : List UInt8) (l : Loc) :
    (s.write fd bs).fs.node l = s.fs.node l := by
  unfold write
  split <;> rfl

theorem Opened.node_write (h : Opened s k i fd s') (bs : List UInt8) (l : Loc) :
    (s'.write fd bs).fs.node l = if l = k then some (.file i) else s.fs.node l := by
  rw [write_node, h.node]

/-- The destination has the bytes that were written. -/
theorem Opened.contents_write (h : Opened s k i fd s') (bs : List UInt8) :
    (s'.write fd bs).fs.contents k = some bs := by
  refine FS.contents_eq_some.mpr ⟨i, ?_, ?_⟩
  · rw [h.node_write, if_pos rfl]
  · rw [h.data_write, if_pos rfl]

/-- **Only the destination changes**: another file has the bytes it had, unless it is
the destination under another name. -/
theorem Opened.contents_other (h : Opened s k i fd s') (bs : List UInt8) (l : Loc) :
    (s'.write fd bs).fs.contents l = s.fs.contents l ∨
      (s'.write fd bs).fs.node l = some (.file i) := by
  by_cases hl : (s'.write fd bs).fs.node l = some (.file i)
  · exact Or.inr hl
  · left
    have hlk : l ≠ k := by
      rintro rfl
      rw [h.node_write, if_pos rfl] at hl
      exact hl rfl
    rw [h.node_write, if_neg hlk] at hl
    refine Option.ext fun ds => ?_
    rw [FS.contents_eq_some, FS.contents_eq_some]
    refine exists_congr fun j => ?_
    rw [h.node_write, if_neg hlk]
    refine and_congr_right fun hj => ?_
    have hji : j ≠ i := by
      rintro rfl
      exact hl hj
    rw [h.data_write, if_neg hji]

theorem Opened.grows_write (h : Opened s k i fd s') (bs : List UInt8) :
    s.fs.Grows (s'.write fd bs).fs :=
  h.grows.trans (Sys.grows_write s' fd bs)

end Opened

end Sys

end Posix
end IsrTransfer
