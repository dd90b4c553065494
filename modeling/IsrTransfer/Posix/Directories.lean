import IsrTransfer.Posix.Machine

/-!
# Directories that are made

What a call of `mkdir` does to the path it is given.  There are three results.  If it makes a
directory, the path leads to it from then on, and nothing else has changed (`mkdir_made`).  If it
says that something is there already, that is a directory, or the path is `Taken`: a file stands
there, or a link that does not lead to a directory (`mkdir_exist`).  Otherwise it has failed, and
the state is as it was (`mkdir_failed`).

`mkdir` ignores slashes at the end of its path, which a walk does not: `lead` is where a path
leads when these slashes ask for nothing more.

`MakesAt` says where a directory is made, and when: the parent is found, and the new entry may be
inserted there.  It is what a caller shows who has to know that a call succeeds.
-/

namespace IsrTransfer
namespace Posix

namespace Sys

variable {s s' : Sys} {path : List UInt8} {l : Loc}

/-- Where a path leads when slashes at its end ask for nothing more. -/
def lead (s : Sys) (path : List UInt8) : Option Loc :=
  if path = [] ∨ pathMax ≤ path.length then none
  else s.fs.walk symloopMax (startOf path s.cwd) (components (path.rdropWhile (· = slash)))

/-- The path names a directory. -/
def NamesDir (s : Sys) (path : List UInt8) : Prop :=
  ∃ l, s.lead path = some l ∧ s.fs.node l = some .dir

/-- Something stands under the path, and the path names no directory: a file stands
there, or a link that does not lead to a directory. -/
def Taken (s : Sys) (path : List UInt8) : Prop :=
  (∃ cur c nd, s.mkdirParent path = some (cur, c) ∧ s.fs.node (c :: cur) = some nd) ∧
    ¬ s.NamesDir path

theorem lead_of_grows (h : s.fs.Grows s'.fs) (hcwd : s'.cwd = s.cwd) (hl : s.lead path = some l) :
    s'.lead path = some l := by
  unfold lead at hl ⊢
  split at hl
  · exact absurd hl (by simp)
  · rw [if_neg ‹_›, hcwd]
    exact FS.walk_grows h _ hl

theorem NamesDir.of_grows (h : s.fs.Grows s'.fs) (hcwd : s'.cwd = s.cwd) (hd : s.NamesDir path) :
    s'.NamesDir path := by
  obtain ⟨l, hl, hdir⟩ := hd
  exact ⟨l, lead_of_grows h hcwd hl, h.keep l _ hdir⟩

/-- The path leads through the directory in which `mkdir` would make another. -/
theorem lead_of_mkdirParent {cur : Loc} {c : Name} (h : s.mkdirParent path = some (cur, c)) :
    s.fs.Enterable cur ∧ (s.fs.walk 0 cur [c] = some l → s.lead path = some l) := by
  unfold mkdirParent at h
  simp only at h
  split at h
  · exact absurd h (by simp)
  · rename_i hpath
    split at h
    · exact absurd h (by simp)
    · rename_i k hk
      split at h
      · rename_i henter
        obtain ⟨rfl, rfl⟩ := Prod.mk.inj (Option.some.inj h)
        refine ⟨henter, fun hlast => ?_⟩
        rw [lead, if_neg hpath, ← List.dropLast_append_getLast (components_ne_nil _)]
        exact FS.walk_append_plain henter.1 hlast _ hk
      · exact absurd h (by simp)

/-- **A directory that is made is where the path leads**, and it is all that is new. -/
theorem mkdir_made (h : s.mkdir path = (.made, s')) :
    ∃ l, s'.lead path = some l ∧ s.fs.node l = none ∧
      ∀ k, s'.fs.node k = if k = l then some .dir else s.fs.node k := by
  unfold mkdir at h
  cases hparent : s.mkdirParent path with
  | none =>
    rw [hparent] at h
    exact absurd (congrArg Prod.fst h) (by simp)
  | some place =>
    obtain ⟨cur, c⟩ := place
    rw [hparent] at h
    simp only at h
    split at h
    · exact absurd (congrArg Prod.fst h) (by simp)
    · rename_i hname
      rw [not_or] at hname
      split at h
      · exact absurd (congrArg Prod.fst h) (by simp)
      · rename_i hnone
        split at h
        · rename_i hins
          obtain rfl := congrArg Prod.snd h
          have hnode : ∀ k, (s.fs.makeDir (c :: cur)).node k =
              if k = c :: cur then some .dir else s.fs.node k := by
            intro k
            rw [FS.makeDir, dif_pos hins, FS.node_insert]
          have hwalk : s.fs.walk 0 cur [c] = some (c :: cur) :=
            FS.walkWith_missing (lead_of_mkdirParent (l := cur) hparent).1 hname.1 hname.2 hnone
              hins.1.2.2.2.2.2
          have hlead := (lead_of_mkdirParent hparent).2 hwalk
          exact ⟨c :: cur, lead_of_grows (FS.dirsAdded_makeDir _ _).grows rfl hlead, hnone, hnode⟩
        · exact absurd (congrArg Prod.fst h) (by simp)

/-- **What is there already is a directory, or the path is taken.** -/
theorem mkdir_exist (h : s.mkdir path = (.exist, s')) :
    s' = s ∧ (s.NamesDir path ∨ s.Taken path) := by
  unfold mkdir at h
  cases hparent : s.mkdirParent path with
  | none =>
    rw [hparent] at h
    exact absurd (congrArg Prod.fst h) (by simp)
  | some place =>
    obtain ⟨cur, c⟩ := place
    rw [hparent] at h
    simp only at h
    have henter := (lead_of_mkdirParent (l := cur) hparent).1
    split at h
    · rename_i hname
      refine ⟨(congrArg Prod.snd h).symm, Or.inl ?_⟩
      rcases hname with hstays | rfl
      · exact ⟨cur, (lead_of_mkdirParent hparent).2 (FS.walkWith_stays henter hstays), henter.1⟩
      · refine ⟨cur.tail, (lead_of_mkdirParent hparent).2 (FS.walkWith_dotdot henter), ?_⟩
        cases cur with
        | nil => rfl
        | cons n cur => exact FS.node_parent henter.1
    · split at h
      · rename_i nd hnd
        refine ⟨(congrArg Prod.snd h).symm, ?_⟩
        by_cases hdir : s.NamesDir path
        · exact Or.inl hdir
        · exact Or.inr ⟨⟨cur, c, nd, hparent, hnd⟩, hdir⟩
      · split at h
        · exact absurd (congrArg Prod.fst h) (by simp)
        · exact absurd (congrArg Prod.fst h) (by simp)

theorem mkdir_failed (h : s.mkdir path = (.failed, s')) : s' = s := by
  unfold mkdir at h
  split at h
  · exact (congrArg Prod.snd h).symm
  · split at h
    · exact absurd (congrArg Prod.fst h) (by simp)
    · split at h
      · exact absurd (congrArg Prod.fst h) (by simp)
      · split at h
        · exact absurd (congrArg Prod.fst h) (by simp)
        · exact (congrArg Prod.snd h).symm

theorem mkdirParent_of_grows (h : s.fs.Grows s'.fs) (hcwd : s'.cwd = s.cwd) {cur : Loc} {c : Name}
    (hp : s.mkdirParent path = some (cur, c)) : s'.mkdirParent path = some (cur, c) := by
  unfold mkdirParent at hp ⊢
  simp only at hp ⊢
  split at hp
  · exact absurd hp (by simp)
  · rw [if_neg ‹_›]
    split at hp
    · exact absurd hp (by simp)
    · rename_i k hk
      rw [hcwd, FS.walk_grows h _ hk]
      split at hp
      · rename_i henter
        simp only [if_pos (henter.grows h)]
        exact hp
      · exact absurd hp (by simp)

/-! ## Where a directory is made -/

/-- `mkdir` makes the directory `c` in `cur`. -/
structure MakesAt (s : Sys) (path : List UInt8) (cur : Loc) (c : Name) : Prop where
  parent : s.mkdirParent path = some (cur, c)
  insertable : s.fs.Insertable (c :: cur) .dir s.fs.fresh

theorem MakesAt.mkdir_eq {cur : Loc} {c : Name} (h : s.MakesAt path cur c) :
    s.mkdir path = (.made, { s with fs := s.fs.makeDir (c :: cur) }) := by
  obtain ⟨hparent, hins⟩ := h
  obtain ⟨hs, hd⟩ := not_stays_of_valid hins.1
  unfold mkdir
  rw [hparent]
  simp only
  rw [if_neg (not_or.mpr ⟨hs, hd⟩), hins.2.2.1]
  exact if_pos hins

theorem makesAt_of_made (h : (s.mkdir path).1 = .made) : ∃ cur c, s.MakesAt path cur c := by
  unfold mkdir at h
  split at h
  · cases h
  · rename_i cur c hparent
    split at h
    · cases h
    · split at h
      · cases h
      · split at h
        · exact ⟨cur, c, hparent, ‹_›⟩
        · cases h

theorem mkdir_eq_self (h : (s.mkdir path).1 ≠ .made) : (s.mkdir path).2 = s := by
  cases hmk : s.mkdir path with
  | mk r s' =>
    rw [hmk] at h
    cases r with
    | made => exact absurd rfl h
    | exist => exact (mkdir_exist hmk).1
    | failed => exact mkdir_failed hmk

/-- A path that is taken is there already. -/
theorem Taken.mkdir_eq (h : s.Taken path) : s.mkdir path = (.exist, s) := by
  obtain ⟨⟨cur, c, nd, hparent, hnd⟩, -⟩ := h
  unfold mkdir
  rw [hparent]
  simp only
  split
  · rfl
  · rw [hnd]

end Sys

end Posix
end IsrTransfer
