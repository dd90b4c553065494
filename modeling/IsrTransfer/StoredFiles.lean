import IsrTransfer.ClientOutcomes
import IsrTransfer.PathMeaning
import IsrTransfer.ServerJail

/-!
# The files of the server

Under a root without links the files of the server are a table of bytes, and the key of a
request is made of the names in its path alone: `placeOf`.  What a SEND writes under the path
that `isr_resolve_path` gives out is in the file that the path of the client leads to
afterwards, and in no other, if no file has a second name.  All this is kept (`Served`), since
nothing that the server makes is a link, and what is new has an inode of its own.

The path of the client, the path that `isr_resolve_path` makes of it, and the place are three
names of the same thing.  The second is the real path of the parent with the last component, so
that it leads where the first leads (`Rooted.resolve_eq`); and both lead to the place, if they
lead anywhere, for without links a walk goes down by the names it reads (`Rooted.place`).  None of
this changes when directories are made, which the server does before it opens the file.

`Rooted` is the promise without a bound on the length of the files.  It is enough for uploads of
trees.  What is to be fetched must not be so long that the sum of its bytes has no room in the
messages, and this is the rest of `Served`.
-/

namespace IsrTransfer

open Effect Posix

variable {F : Faults} {root path full data : List UInt8} {l k : Loc} {s s' : Sys}

/-! ## What has been written -/

theorem Posix.Sys.write_cwd (s : Sys) (fd : Fd) (bs : List UInt8) :
    (s.write fd bs).cwd = s.cwd := by
  unfold Sys.write
  split <;> rfl

/-- The path leads to the file that has been written. -/
theorem Written.bytesAt (h : Written s path data s') :
    ∃ k, s'.resolve path = some k ∧ s'.fs.contents k = some data := by
  obtain ⟨s₁, fd, s₂, hdirs, hopen, rfl⟩ := h
  obtain ⟨k, i, hk, hop⟩ := Sys.opened_of_openWrite hopen
  refine ⟨k, ?_, hop.contents_write data⟩
  unfold Sys.resolve at hk ⊢
  rw [Sys.write_cwd, hop.cwd]
  exact FS.resolve_grows (hop.grows_write data) hk

/-! ## Places -/

/-- The place under `l` that the names in a path denote. -/
def placeOf (l : Loc) (path : List UInt8) : Loc := FS.descend l (components path)

/-- Under a root without links, a path that has been resolved denotes its place. -/
theorem place_of_resolvedPath (hroot : Canonical s.fs root l) (hlinks : s.fs.NoLinksBelow l)
    (hvalid : isrValidatePath path ≠ -1)
    (hfull : resolvedPath s root path isrPathMax = some full) (hdirs : s.DirsAdded s')
    (hk : s'.resolve full = some k) : k = placeOf l path := by
  obtain ⟨-, cs, hcs, hdd, hnames⟩ := resolvedPath_plain hroot hlinks
    (dotdot_notMem_of_valid hvalid) hfull
  have hg := hdirs.fs.grows
  obtain ⟨-, -, -, hwalk⟩ := (hcs.resolve (hg.keep l _ hroot.dir)).mp hk
  rw [FS.walk_plain hdd (hlinks.grows hg) hwalk, placeOf, FS.descend, FS.descend, hnames]

/-- Every file at `l` or below it has one name. -/
def NoHardLinksBelow (fs : FS) (l : Loc) : Prop :=
  ∀ k k' i, l <:+ k → fs.node k = some (.file i) → fs.node k' = some (.file i) → k' = k

/-- What is promised about the files at `l` and below: the root is the real path of `l`, there
are no links and no second names, and nobody else changes the files. -/
structure Rooted (root : List UInt8) (l : Loc) (s : Sys) : Prop where
  canonical : Canonical s.fs root l
  noLinks : s.fs.NoLinksBelow l
  noHardLinks : NoHardLinksBelow s.fs l
  still : s.script = none

/-- What is promised about the files that are served from `l`: the root is the real path of
`l`, there are no links, nobody else changes the files, and no file is too long. -/
structure Served (root : List UInt8) (l : Loc) (s : Sys) : Prop where
  canonical : Canonical s.fs root l
  noLinks : s.fs.NoLinksBelow l
  noHardLinks : NoHardLinksBelow s.fs l
  still : s.script = none
  short : ∀ k content, l <:+ k → s.fs.contents k = some content → content.length < 2 ^ 55

theorem Served.rooted (h : Served root l s) : Rooted root l s :=
  ⟨h.canonical, h.noLinks, h.noHardLinks, h.still⟩

/-- A path that has been resolved denotes its place. -/
theorem Rooted.place (h : Rooted root l s) (hvalid : isrValidatePath path ≠ -1)
    (hfull : resolvedPath s root path isrPathMax = some full) (hdirs : s.DirsAdded s')
    (hk : s'.resolve full = some k) : k = placeOf l path :=
  place_of_resolvedPath h.canonical h.noLinks hvalid hfull hdirs hk

theorem Served.place (h : Served root l s) (hvalid : isrValidatePath path ≠ -1)
    (hfull : resolvedPath s root path isrPathMax = some full) (hdirs : s.DirsAdded s')
    (hk : s'.resolve full = some k) : k = placeOf l path :=
  h.rooted.place hvalid hfull hdirs hk

/-- The path that has been resolved leads to where the path of the client leads, also after
directories have been made. -/
theorem Rooted.resolve_eq (h : Rooted root l s) (hvalid : isrValidatePath path ≠ -1)
    (hfull : resolvedPath s root path isrPathMax = some full) (hdirs : s.DirsAdded s') :
    s'.resolve full = s'.resolve (root ++ slash :: path) := by
  have hchecked := checked_of_resolvedPath hvalid hfull
  have hg := hdirs.fs.grows
  obtain ⟨dir, name, hsplit, rfl, -, -⟩ :=
    (wellAimed_of_noLinks h.canonical h.noLinks hchecked).1.accepted h.canonical.path_eq hfull
  cases hrp : s.realpath dir with
  | none =>
    -- nothing has been replaced
    rw [realized, hrp, Option.getD_none, hsplit.eq]
  | some rp =>
    have hrp' : s'.realpath dir = some rp := by
      obtain ⟨j, nd, hj, hnd, rfl, hlen⟩ := realpath_eq_some hrp
      have hj' : s'.resolve dir = some j := by
        unfold Sys.resolve at hj ⊢
        rw [hdirs.cwd]
        exact FS.resolve_grows hg hj
      unfold Sys.realpath
      rw [hj']
      simp only [hg.keep j nd hnd, reduceCtorEq, false_or]
      rw [if_neg (by omega)]
    have hroot' := h.canonical.grows hg
    have hlinks' := h.noLinks.grows hg
    obtain ⟨out, hout, hsame⟩ := samePlace_of_resolvedPath hroot' hlinks'
      (dotdot_notMem_of_valid hvalid) hchecked.2
    obtain ⟨dir', name', hsplit', rfl, -, -⟩ :=
      (wellAimed_of_noLinks hroot' hlinks' hchecked).1.accepted hroot'.path_eq hout
    obtain ⟨rfl, rfl⟩ := hsplit.unique hsplit'
    have heq : realized s dir name = realized s' dir name := by
      rw [realized, realized, hrp, hrp']
    rw [heq]
    exact hsame.place

theorem Served.resolve_eq (h : Served root l s) (hvalid : isrValidatePath path ≠ -1)
    (hfull : resolvedPath s root path isrPathMax = some full) (hdirs : s.DirsAdded s') :
    s'.resolve full = s'.resolve (root ++ slash :: path) :=
  h.rooted.resolve_eq hvalid hfull hdirs

/-! ## What is kept -/

/-- Directories that are added make no difference. -/
theorem Rooted.of_dirsAdded (h : Rooted root l s) (hdirs : s.fs.DirsAdded s'.fs)
    (hs : s'.script = none) : Rooted root l s' where
  canonical := h.canonical.grows hdirs.grows
  noLinks := h.noLinks.grows hdirs.grows
  noHardLinks k k' i hl hk hk' :=
    h.noHardLinks k k' i hl (hdirs.file.mp hk) (hdirs.file.mp hk')
  still := hs

theorem Served.of_dirsAdded (h : Served root l s) (hdirs : s.fs.DirsAdded s'.fs)
    (hs : s'.script = none) : Served root l s' := by
  obtain ⟨hcanonical, hlinks, hhard, hstill⟩ := h.rooted.of_dirsAdded hdirs hs
  refine ⟨hcanonical, hlinks, hhard, hstill, fun k content hl hk => ?_⟩
  rw [hdirs.contents] at hk
  exact h.short k content hl hk

/-- What has been stored: the file that the path leads to has the bytes, it is at the place
that the path denotes, and no other file has changed. -/
structure StoredAt (root : List UInt8) (l : Loc) (s : Sys) (path data : List UInt8) (s' : Sys) :
    Prop where
  leads : s'.resolve (root ++ slash :: path) = some (placeOf l path)
  bytes : s'.fs.contents (placeOf l path) = some data
  others : ∀ k, k ≠ placeOf l path → s'.fs.contents k = s.fs.contents k

/-- **What is written under a path that has been resolved is stored at its place**: the place
that the names of the path lead to from the root, whether the path has been replaced by its
real path or not. -/
theorem Rooted.written (h : Rooted root l s) (hvalid : isrValidatePath path ≠ -1)
    (hfull : resolvedPath s root path isrPathMax = some full) (hw : Written s full data s') :
    StoredAt root l s path data s' ∧ Rooted root l s' := by
  obtain ⟨s₁, fd, s₂, hdirs, hopen, rfl⟩ := hw
  obtain ⟨k, i, hk, hop⟩ := Sys.opened_of_openWrite hopen
  obtain rfl := h.place hvalid hfull hdirs hk
  have hbelow : l <:+ placeOf l path := FS.suffix_descend l (components path)
  have hg : s.fs.Grows (s₂.write fd data).fs := hdirs.fs.grows.trans (hop.grows_write data)
  -- another file with this inode would have been a second name
  have hone : ∀ j, (s₂.write fd data).fs.node j = some (.file i) → j = placeOf l path := by
    intro j hj
    by_contra hne
    rw [hop.node_write, if_neg hne] at hj
    have hold := hdirs.fs.file.mp hj
    rcases hop.before with hb | ⟨-, rfl⟩
    · exact hne (h.noHardLinks _ j i hbelow (hdirs.fs.file.mp hb) hold)
    · have hlt := FS.ino_lt_fresh hj
      omega
  have hothers : ∀ j, j ≠ placeOf l path →
      (s₂.write fd data).fs.contents j = s.fs.contents j := by
    intro j hne
    rw [← hdirs.fs.contents j]
    exact (hop.contents_other data j).resolve_right fun hj => hne (hone j hj)
  refine ⟨⟨?_, hop.contents_write data, hothers⟩, ?_⟩
  · rw [h.resolve_eq hvalid hfull hdirs] at hk
    unfold Sys.resolve at hk ⊢
    rw [Sys.write_cwd, hop.cwd]
    exact FS.resolve_grows (hop.grows_write data) hk
  · constructor
    · exact h.canonical.grows hg
    · exact h.noLinks.grows hg
    · intro j j' i' hl hj hj'
      by_cases hi : i' = i
      · subst hi
        rw [hone j hj, hone j' hj']
      · rw [hop.node_write] at hj hj'
        split at hj
        · exact absurd (by simpa using hj.symm) hi
        · split at hj'
          · exact absurd (by simpa using hj'.symm) hi
          · exact h.noHardLinks j j' i' hl (hdirs.fs.file.mp hj) (hdirs.fs.file.mp hj')
    · rw [Sys.write_script, hop.script]
      obtain ⟨fs, -, rfl⟩ := hdirs
      exact h.still

theorem Served.written (h : Served root l s) (hvalid : isrValidatePath path ≠ -1)
    (hfull : resolvedPath s root path isrPathMax = some full) (hw : Written s full data s')
    (hdata : data.length < 2 ^ 55) : StoredAt root l s path data s' ∧ Served root l s' := by
  obtain ⟨hstored, hcanonical, hlinks, hhard, hstill⟩ := h.rooted.written hvalid hfull hw
  refine ⟨hstored, hcanonical, hlinks, hhard, hstill, fun j content hl hj => ?_⟩
  by_cases hne : j = placeOf l path
  · rw [hne, hstored.bytes] at hj
    obtain rfl := Option.some.inj hj
    exact hdata
  · rw [hstored.others j hne] at hj
    exact h.short j content hl hj

end IsrTransfer
