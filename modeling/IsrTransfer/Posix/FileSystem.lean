import Mathlib.Init

/-!
# A POSIX file system

A file system is a finite table of *locations*.  A location is the list of names
that lead to an object from `/`, innermost name first, so that the parent of
`n :: l` is `l` and an object lies below a directory exactly when the directory's
location is a suffix of its own.  Regular files carry the number of an inode,
and the bytes belong to the inode: two locations with one number are hard links.
Symbolic links carry their target as bytes.

The structure carries its own well-formedness: every object stands in a
directory, has a legal name, and no inode number in use is ever handed out again
(`nodup`, `ok`).  Objects are only ever added, by `insert`, which asks for what
the fields need; so a file system that is not a tree cannot be built.

Search permission is a predicate on locations.  It is also read at locations
that do not exist yet, where it says what a directory made there will allow.
-/

namespace IsrTransfer
namespace Posix

/-- A file name, as bytes. -/
abbrev Name : Type := List UInt8

/-- Where an object is: the names from `/` down to it, innermost first. -/
abbrev Loc : Type := List Name

/-- The byte `/`. -/
def slash : UInt8 := 0x2F

/-- The name `.`. -/
def dot : Name := [0x2E]

/-- The name `..`. -/
def dotdot : Name := [0x2E, 0x2E]

/-- Longest name of one object. -/
def nameMax : Nat := 255

/-- A path needs to be shorter than this, its terminator not counted. -/
def pathMax : Nat := 4096

/-- How many symbolic links one path resolution may follow. -/
def symloopMax : Nat := 40

/-- The names an object may have in a directory. -/
def ValidName (n : Name) : Prop :=
  n ≠ [] ∧ n ≠ dot ∧ n ≠ dotdot ∧ slash ∉ n ∧ 0 ∉ n ∧ n.length ≤ nameMax

instance : DecidablePred ValidName := fun n =>
  inferInstanceAs (Decidable (n ≠ [] ∧ n ≠ dot ∧ n ≠ dotdot ∧ slash ∉ n ∧ 0 ∉ n ∧
    n.length ≤ nameMax))

/-- An object of the file system. -/
inductive Node where
  | dir : Node
  | file : (ino : Nat) → Node
  | link : (target : List UInt8) → Node
  deriving DecidableEq

/-- An inode number, if there is one, is below `bound`. -/
def Node.InoBelow (bound : Nat) : Node → Prop
  | .file i => i < bound
  | _ => True

instance (bound : Nat) : DecidablePred (Node.InoBelow bound) := fun nd =>
  match nd with
  | .file i => inferInstanceAs (Decidable (i < bound))
  | .dir => inferInstanceAs (Decidable True)
  | .link _ => inferInstanceAs (Decidable True)

/-- The object a table has at a location; `/` is always a directory. -/
def nodeAt (entries : List (Loc × Node)) : Loc → Option Node
  | [] => some .dir
  | n :: l => entries.lookup (n :: l)

/-- What one entry of the table has to satisfy. -/
def EntryOk (entries : List (Loc × Node)) (fresh : Nat) : Loc × Node → Prop
  | ([], _) => False
  | (n :: l, nd) => ValidName n ∧ nodeAt entries l = some .dir ∧ nd.InoBelow fresh

instance (entries : List (Loc × Node)) (fresh : Nat) :
    DecidablePred (EntryOk entries fresh) := fun e =>
  match e with
  | ([], _) => inferInstanceAs (Decidable False)
  | (n :: l, nd) => inferInstanceAs
      (Decidable (ValidName n ∧ nodeAt entries l = some .dir ∧ nd.InoBelow fresh))

/-- A file system. -/
structure FS where
  /-- Every object except `/`. -/
  entries : List (Loc × Node)
  /-- The bytes of each inode. -/
  data : Nat → List UInt8
  /-- No inode number from here on is in use. -/
  fresh : Nat
  /-- Directories whose search permission is missing. -/
  noSearch : Loc → Bool
  /-- A location has one object. -/
  nodup : (entries.map Prod.fst).Nodup
  /-- Every object stands in a directory and has a legal name. -/
  ok : ∀ e ∈ entries, EntryOk entries fresh e

namespace FS

variable {fs : FS} {n : Name} {l : Loc} {nd : Node}

/-- The object at a location. -/
def node (fs : FS) (l : Loc) : Option Node := nodeAt fs.entries l

@[simp] theorem node_nil (fs : FS) : fs.node [] = some .dir := rfl

theorem mem_of_node (h : fs.node (n :: l) = some nd) : (n :: l, nd) ∈ fs.entries := by
  obtain ⟨l₁, l₂, hl, -⟩ := List.lookup_eq_some_iff.mp (h : fs.entries.lookup _ = _)
  rw [hl]
  exact List.mem_append_right _ List.mem_cons_self

/-- An object stands in a directory. -/
theorem node_parent (h : fs.node (n :: l) = some nd) : fs.node l = some .dir :=
  (fs.ok _ (mem_of_node h)).2.1

theorem validName_of_node (h : fs.node (n :: l) = some nd) : ValidName n :=
  (fs.ok _ (mem_of_node h)).1

theorem ino_lt_fresh {i : Nat} (h : fs.node l = some (.file i)) : i < fs.fresh := by
  cases l with
  | nil => simp at h
  | cons n l => exact (fs.ok _ (mem_of_node h)).2.2

/-- Every ancestor of an object is a directory. -/
theorem node_of_suffix {a : Loc} (hsuf : a <:+ l) (hne : a ≠ l)
    (h : fs.node l = some nd) : fs.node a = some .dir := by
  induction l generalizing nd with
  | nil => exact absurd (List.suffix_nil.mp hsuf) hne
  | cons n l ih =>
    rcases List.suffix_cons_iff.mp hsuf with rfl | hsuf'
    · exact absurd rfl hne
    · by_cases hal : a = l
      · rw [hal]
        exact node_parent h
      · exact ih hsuf' hal (node_parent h)

/-- Nothing stands below a place where nothing is. -/
theorem node_below_missing {a : Loc} (h : fs.node a = none) (hsuf : a <:+ l) :
    fs.node l = none := by
  cases hl : fs.node l with
  | none => rfl
  | some nd =>
    by_cases hne : a = l
    · rw [hne, hl] at h
      exact h
    · exact absurd ((node_of_suffix hsuf hne hl).symm.trans h) (by simp)

/-- The bytes of the regular file at a location. -/
def contents (fs : FS) (l : Loc) : Option (List UInt8) :=
  match fs.node l with
  | some (.file i) => some (fs.data i)
  | _ => none

theorem contents_of_file {i : Nat} (h : fs.node l = some (.file i)) :
    fs.contents l = some (fs.data i) := by
  simp [contents, h]

theorem contents_eq_some {bs : List UInt8} :
    fs.contents l = some bs ↔ ∃ i, fs.node l = some (.file i) ∧ fs.data i = bs := by
  unfold contents
  split <;> simp_all

/-- The names in a directory. -/
def children (fs : FS) (l : Loc) : List Name :=
  fs.entries.filterMap fun e =>
    match e.1 with
    | [] => none
    | n :: p => if p = l then some n else none

theorem mem_children : n ∈ fs.children l ↔ ∃ nd, fs.node (n :: l) = some nd := by
  rw [children, List.mem_filterMap]
  constructor
  · rintro ⟨⟨k, nd⟩, hmem, hk⟩
    cases k with
    | nil => simp at hk
    | cons m p =>
      obtain ⟨rfl, rfl⟩ : p = l ∧ m = n := by simpa using hk
      have hsome : (fs.entries.lookup (m :: p)).isSome := by
        rw [List.lookup_isSome_iff]
        exact ⟨_, hmem, by simp⟩
      exact Option.isSome_iff_exists.mp hsome
  · rintro ⟨nd, h⟩
    exact ⟨_, mem_of_node h, by simp⟩

theorem nodup_children (fs : FS) (l : Loc) : (fs.children l).Nodup := by
  have h : ∀ es : List (Loc × Node), (es.map Prod.fst).Nodup →
      (es.filterMap fun e => match e.1 with
        | [] => none
        | n :: p => if p = l then some n else none).Nodup := by
    intro es
    induction es with
    | nil => simp
    | cons e es ih =>
      intro hnd
      rw [List.map_cons, List.nodup_cons] at hnd
      obtain ⟨hnot, hnd⟩ := hnd
      rw [List.filterMap_cons]
      split
      · exact ih hnd
      · rename_i m hm
        refine List.nodup_cons.mpr ⟨fun hmem => hnot ?_, ih hnd⟩
        obtain ⟨e', he', hm'⟩ := List.mem_filterMap.mp hmem
        refine List.mem_map.mpr ⟨e', he', ?_⟩
        revert hm hm'
        cases e.1 <;> cases e'.1 <;> simp +contextual
  exact h fs.entries fs.nodup

/-! ## Adding objects and changing bytes -/

/-- An object may be added at `l`: its name is legal, its parent is a directory
and nothing stands there. -/
def Insertable (fs : FS) (l : Loc) (nd : Node) (fresh : Nat) : Prop :=
  match l with
  | [] => False
  | n :: p => ValidName n ∧ fs.node p = some .dir ∧ fs.node (n :: p) = none ∧
      fs.fresh ≤ fresh ∧ nd.InoBelow fresh

instance (fs : FS) (l : Loc) (nd : Node) (fresh : Nat) :
    Decidable (fs.Insertable l nd fresh) :=
  match l with
  | [] => inferInstanceAs (Decidable False)
  | n :: p => inferInstanceAs (Decidable (ValidName n ∧ fs.node p = some .dir ∧
      fs.node (n :: p) = none ∧ fs.fresh ≤ fresh ∧ nd.InoBelow fresh))

theorem nodeAt_cons (es : List (Loc × Node)) (k l : Loc) (nd : Node) (hk : k ≠ []) :
    nodeAt ((k, nd) :: es) l = if l = k then some nd else nodeAt es l := by
  cases l with
  | nil => simp [nodeAt, hk.symm]
  | cons n l =>
    rw [nodeAt, List.lookup_cons]
    by_cases h : (n :: l) = k
    · simp [h]
    · have hb : ((n :: l) == k) = false := by simpa using h
      simp [h, hb, nodeAt]

/-- Add an object. -/
def insert (fs : FS) (l : Loc) (nd : Node) (fresh : Nat)
    (h : fs.Insertable l nd fresh) : FS where
  entries := (l, nd) :: fs.entries
  data := fs.data
  fresh := fresh
  noSearch := fs.noSearch
  nodup := by
    cases l with
    | nil => exact h.elim
    | cons n p =>
      rw [List.map_cons, List.nodup_cons]
      refine ⟨fun hmem => ?_, fs.nodup⟩
      obtain ⟨⟨k, nd'⟩, he, hk⟩ := List.mem_map.mp hmem
      have hnone : fs.entries.lookup (n :: p) = none := h.2.2.1
      have hne : ¬ n :: p = k := by simpa using List.lookup_eq_none_iff.mp hnone (k, nd') he
      exact hne hk.symm
  ok := by
    cases l with
    | nil => exact h.elim
    | cons n p =>
      have hkeep : ∀ q, nodeAt fs.entries q = some .dir →
          nodeAt ((n :: p, nd) :: fs.entries) q = some .dir := by
        intro q hq
        rw [nodeAt_cons _ _ _ _ (by simp), if_neg, hq]
        rintro rfl
        exact absurd (hq.symm.trans h.2.2.1) (by simp)
      intro e he
      rcases List.mem_cons.mp he with rfl | he
      · exact ⟨h.1, hkeep p h.2.1, h.2.2.2.2⟩
      · have hok := fs.ok e he
        obtain ⟨k, nd'⟩ := e
        cases k with
        | nil => exact hok
        | cons m q =>
          refine ⟨hok.1, hkeep q hok.2.1, ?_⟩
          have hino := hok.2.2
          cases nd' with
          | file i => exact Nat.lt_of_lt_of_le hino h.2.2.2.1
          | dir => exact trivial
          | link t => exact trivial

theorem node_insert {fresh : Nat} (h : fs.Insertable l nd fresh) (k : Loc) :
    (fs.insert l nd fresh h).node k = if k = l then some nd else fs.node k := by
  have hl : l ≠ [] := by
    rintro rfl
    exact h.elim
  exact nodeAt_cons fs.entries l k nd hl

@[simp] theorem data_insert {fresh : Nat} (h : fs.Insertable l nd fresh) :
    (fs.insert l nd fresh h).data = fs.data := rfl

@[simp] theorem noSearch_insert {fresh : Nat} (h : fs.Insertable l nd fresh) :
    (fs.insert l nd fresh h).noSearch = fs.noSearch := rfl

@[simp] theorem fresh_insert {fresh : Nat} (h : fs.Insertable l nd fresh) :
    (fs.insert l nd fresh h).fresh = fresh := rfl

/-- Give an inode new bytes. -/
def setData (fs : FS) (i : Nat) (bs : List UInt8) : FS :=
  { fs with data := fun j => if j = i then bs else fs.data j }

@[simp] theorem node_setData (fs : FS) (i : Nat) (bs : List UInt8) (l : Loc) :
    (fs.setData i bs).node l = fs.node l := rfl

@[simp] theorem noSearch_setData (fs : FS) (i : Nat) (bs : List UInt8) :
    (fs.setData i bs).noSearch = fs.noSearch := rfl

@[simp] theorem fresh_setData (fs : FS) (i : Nat) (bs : List UInt8) :
    (fs.setData i bs).fresh = fs.fresh := rfl

theorem data_setData (fs : FS) (i j : Nat) (bs : List UInt8) :
    (fs.setData i bs).data j = if j = i then bs else fs.data j := rfl

@[simp] theorem data_setData_self (fs : FS) (i : Nat) (bs : List UInt8) :
    (fs.setData i bs).data i = bs := if_pos rfl

theorem data_setData_of_ne {i j : Nat} (h : j ≠ i) (bs : List UInt8) :
    (fs.setData i bs).data j = fs.data j := if_neg h

/-- The file system with nothing but `/`. -/
def empty : FS where
  entries := []
  data _ := []
  fresh := 0
  noSearch _ := false
  nodup := List.nodup_nil
  ok _ he := absurd he List.not_mem_nil

theorem node_empty (h : empty.node l = some nd) : nd = .dir := by
  cases l with
  | nil => exact (Option.some.inj h).symm
  | cons n l => exact absurd h (by simp [node, empty, nodeAt])

/-! ## Growth

Nothing in the programs removes an object or puts another in its place, so along
every run the file system *grows*: what stands stays, and no link appears. -/

/-- `fs'` has every object of `fs`, and no link that `fs` does not have. -/
structure Grows (fs fs' : FS) : Prop where
  keep : ∀ l nd, fs.node l = some nd → fs'.node l = some nd
  link : ∀ l t, fs'.node l = some (.link t) → fs.node l = some (.link t)
  search : fs'.noSearch = fs.noSearch
  fresh : fs.fresh ≤ fs'.fresh

theorem Grows.refl (fs : FS) : fs.Grows fs :=
  ⟨fun _ _ h => h, fun _ _ h => h, rfl, Nat.le_refl _⟩

theorem Grows.trans {a b c : FS} (h : a.Grows b) (h' : b.Grows c) : a.Grows c :=
  ⟨fun l nd hl => h'.keep l nd (h.keep l nd hl), fun l t hl => h.link l t (h'.link l t hl),
    h'.search.trans h.search, Nat.le_trans h.fresh h'.fresh⟩

theorem grows_setData (fs : FS) (i : Nat) (bs : List UInt8) : fs.Grows (fs.setData i bs) :=
  ⟨fun _ _ h => h, fun _ _ h => h, rfl, Nat.le_refl _⟩

theorem grows_insert {fresh : Nat} (h : fs.Insertable l nd fresh)
    (hnd : ∀ t, nd ≠ .link t) : fs.Grows (fs.insert l nd fresh h) := by
  have hnone : fs.node l = none := by
    cases l with
    | nil => exact h.elim
    | cons n p => exact h.2.2.1
  refine ⟨fun k nd' hk => ?_, fun k t hk => ?_, rfl, ?_⟩
  · rw [node_insert, if_neg, hk]
    rintro rfl
    exact absurd (hk.symm.trans hnone) (by simp)
  · rw [node_insert] at hk
    split at hk
    · exact absurd (Option.some.inj hk) (hnd t)
    · exact hk
  · cases l with
    | nil => exact h.elim
    | cons n p => exact h.2.2.2.1

end FS

end Posix
end IsrTransfer
