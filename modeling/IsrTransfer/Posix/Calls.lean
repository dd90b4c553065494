import IsrTransfer.Effect.Wire
import IsrTransfer.Posix.Walk
import Mathlib.Data.List.DropRight

/-!
# System calls

The calls of a process on its file system, as operations (`OsOp`), and what the
system may do on each (`Sys.step`).  A path that resolves does so in one way; what
is left open is

* how many bytes a read or a write moves, at least one and at most what is asked;
* the order of a directory listing, and the size reported for a directory;
* the failures of `Faults`: a call that is refused although the path resolves
  (permissions, quotas, a full disk, no memory).

Symbolic links are followed in the last component by every call but `mkdir`.  An
open for writing creates a missing file, also behind a link, and empties one that
is there.

A process may instead run on a `Script`: then the size reported for a file and
the results of the reads are what the script says, which is how a file looks that
others change between the calls.
-/

namespace IsrTransfer
namespace Posix

open Effect

/-- An open file: the inode it refers to (`none` for a directory), and its entry
in the table of open files, where the position is kept. -/
structure Fd where
  ino : Option Nat
  id : Nat
  deriving DecidableEq

/-- The outcomes of `mkdir` a caller can tell apart: `0`, `EEXIST`, another
error. -/
inductive MkdirResult where
  | made : MkdirResult
  | exist : MkdirResult
  | failed : MkdirResult
  deriving DecidableEq

/-- An argument of a formatted line. -/
inductive Arg where
  | str : List UInt8 → Arg
  | num : Nat → Arg
  deriving DecidableEq

/-- A formatted line of output: the format string and its arguments. -/
structure Line where
  format : String
  args : List Arg
  deriving DecidableEq

/-- System calls, typed by their results.  `spin` is no call: a program that has
used up its bound on iterations issues it, and it has no answer. -/
inductive OsOp : Type → Type where
  | openRead : (path : List UInt8) → OsOp (Option Fd)
  | openWrite : (path : List UInt8) → OsOp (Option Fd)
  | close : (fd : Fd) → OsOp Unit
  | read : (fd : Fd) → (len : Nat) → OsOp (Option (List UInt8))
  | write : (fd : Fd) → (data : List UInt8) → OsOp (Option Nat)
  | stat : (path : List UInt8) → OsOp (Option (Bool × Nat))
  | mkdir : (path : List UInt8) → OsOp MkdirResult
  | realpath : (path : List UInt8) → OsOp (Option (List UInt8))
  | opendir : (path : List UInt8) → OsOp (Option (List Name))
  | malloc : (size : Nat) → OsOp Bool
  | print : (line : Line) → OsOp Unit
  | eprint : (line : Line) → OsOp Unit
  | spin : OsOp Empty

/-- What a file looks like that others change: the size `stat` reports, and the
results of the reads one after the other (`none` is an error, `[]` the end of the
file, which also comes when the list is used up). -/
structure Script where
  size : Nat
  reads : List (Option (List UInt8))

/-- The state of a process towards its system. -/
structure Sys where
  fs : FS
  cwd : Loc
  pos : Nat → Nat
  nextFd : Nat
  script : Option Script
  printed : List Line
  errors : List Line

/-- Which refusals and errors may occur. -/
structure Faults where
  alloc : Bool
  opens : Bool
  mkdirs : Bool
  reads : Bool
  writes : Bool

/-- Nothing fails that could succeed. -/
def Faults.none : Faults := ⟨false, false, false, false, false⟩

/-- Everything may fail. -/
def Faults.all : Faults := ⟨true, true, true, true, true⟩

/-- The absolute path of a location other than `/`. -/
def renderNames : Loc → List UInt8
  | [] => []
  | n :: l => renderNames l ++ slash :: n

/-- The absolute path of a location, as `realpath` writes it. -/
def render (l : Loc) : List UInt8 := if l = [] then [slash] else renderNames l

/-- The bytes `d` with `bs` written at position `p`; a gap is filled with zeros. -/
def splice (d : List UInt8) (p : Nat) (bs : List UInt8) : List UInt8 :=
  if bs = [] then d
  else d.take p ++ List.replicate (p - d.length) 0 ++ bs ++ d.drop (p + bs.length)

namespace FS

/-- Make a directory; where that is not possible nothing happens. -/
def makeDir (fs : FS) (l : Loc) : FS :=
  if h : fs.Insertable l .dir fs.fresh then fs.insert l .dir fs.fresh h else fs

/-- Make an empty file with a fresh inode. -/
def makeFile (fs : FS) (l : Loc) : FS :=
  if h : fs.Insertable l (.file fs.fresh) (fs.fresh + 1) then
    (fs.insert l (.file fs.fresh) (fs.fresh + 1) h).setData fs.fresh []
  else fs

end FS

namespace Sys

/-- A process that has just started, in the directory `/`. -/
def initial (fs : FS) : Sys := ⟨fs, [], fun _ => 0, 0, none, [], []⟩

/-- The next entry in the table of open files, at position `0`. -/
def newFd (s : Sys) (ino : Option Nat) : Option Fd × Sys :=
  (some ⟨ino, s.nextFd⟩,
    { s with nextFd := s.nextFd + 1, pos := fun k => if k = s.nextFd then 0 else s.pos k })

/-- Where a path leads. -/
def resolve (s : Sys) (path : List UInt8) : Option Loc := s.fs.resolve s.cwd path

/-- `open(path, O_RDONLY)`. -/
def openRead (s : Sys) (path : List UInt8) : Option Fd × Sys :=
  match s.resolve path with
  | none => (none, s)
  | some l =>
    match s.fs.node l with
    | some (.file i) => s.newFd (some i)
    | some .dir => s.newFd none
    | _ => (none, s)

/-- `open(path, O_WRONLY | O_CREAT | O_TRUNC)`. -/
def openWrite (s : Sys) (path : List UInt8) : Option Fd × Sys :=
  match s.resolve path with
  | none => (none, s)
  | some l =>
    match s.fs.node l with
    | some (.file i) => { s with fs := s.fs.setData i [] }.newFd (some i)
    | none =>
      if s.fs.Insertable l (.file s.fs.fresh) (s.fs.fresh + 1) then
        { s with fs := s.fs.makeFile l }.newFd (some s.fs.fresh)
      else (none, s)
    | _ => (none, s)

/-- Where `mkdir` would make a directory: in which one, and under which name.
Slashes at the end do not count. -/
def mkdirParent (s : Sys) (path : List UInt8) : Option (Loc × Name) :=
  let p := path.rdropWhile (· = slash)
  if path = [] ∨ pathMax ≤ path.length then none
  else
    match s.fs.walk symloopMax (startOf path s.cwd) (components p).dropLast with
    | none => none
    | some cur =>
      if s.fs.Enterable cur then some (cur, (components p).getLast (components_ne_nil p))
      else none

/-- `mkdir(path)`; it does not follow a link in the last component. -/
def mkdir (s : Sys) (path : List UInt8) : MkdirResult × Sys :=
  match s.mkdirParent path with
  | none => (.failed, s)
  | some (cur, c) =>
    if FS.Stays c ∨ c = dotdot then (.exist, s)
    else
      match s.fs.node (c :: cur) with
      | some _ => (.exist, s)
      | none =>
        if s.fs.Insertable (c :: cur) .dir s.fs.fresh then
          (.made, { s with fs := s.fs.makeDir (c :: cur) })
        else (.failed, s)

/-- `realpath(path, buf)` with a buffer of `pathMax` bytes. -/
def realpath (s : Sys) (path : List UInt8) : Option (List UInt8) :=
  match s.resolve path with
  | none => none
  | some l =>
    if s.fs.node l = none ∨ pathMax ≤ (render l).length then none else some (render l)

/-- Write at the position of an open file. -/
def write (s : Sys) (fd : Fd) (bs : List UInt8) : Sys :=
  match fd.ino with
  | none => s
  | some i =>
    { s with
      fs := s.fs.setData i (splice (s.fs.data i) (s.pos fd.id) bs)
      pos := fun k => if k = fd.id then s.pos fd.id + bs.length else s.pos k }

/-- What is left to read of an open file; `none` for a directory. -/
def unread (s : Sys) (fd : Fd) : Option (List UInt8) :=
  fd.ino.map fun i => (s.fs.data i).drop (s.pos fd.id)

/-- The position of an open file moves on by `n` bytes. -/
def advance (s : Sys) (fd : Fd) (n : Nat) : Sys :=
  { s with pos := fun k => if k = fd.id then s.pos fd.id + n else s.pos k }

/-- The results of a read of at most `len` bytes. -/
def ReadStep (s : Sys) (fd : Fd) (len : Nat) (r : Option (List UInt8)) (s' : Sys) :
    Prop :=
  match s.script with
  | some sc =>
    match sc.reads with
    | [] => r = some [] ∧ s' = s
    | x :: xs =>
      r = x.map (List.take len) ∧ s' = { s with script := some { sc with reads := xs } }
  | none =>
    match s.unread fd with
    | none => r = none ∧ s' = s
    | some rest =>
      if len = 0 ∨ rest = [] then r = some [] ∧ s' = s
      else ∃ k, 0 < k ∧ k ≤ len ∧ k ≤ rest.length ∧ r = some (rest.take k) ∧
        s' = s.advance fd k

/-- The results of `stat`: whether it is a directory, and the size.  The size of a directory is
any that a 64-bit word holds. -/
def StatStep (s : Sys) (path : List UInt8) (r : Option (Bool × Nat)) : Prop :=
  match s.resolve path with
  | none => r = none
  | some l =>
    match s.fs.node l with
    | some .dir => ∃ size < 18446744073709551616, r = some (true, size)
    | some (.file i) =>
      match s.script with
      | some sc => r = some (false, sc.size)
      | none => r = some (false, (s.fs.data i).length)
    | _ => r = none

/-- The names a directory lists, `.` and `..` among them, in any order. -/
def OpendirStep (s : Sys) (path : List UInt8) (r : Option (List Name)) : Prop :=
  match s.resolve path with
  | none => r = none
  | some l =>
    match s.fs.node l with
    | some .dir => ∃ names, names.Perm (dot :: dotdot :: s.fs.children l) ∧ r = some names
    | _ => r = none

/-- What the system may do on a call. -/
def step (F : Faults) : Env OsOp Sys
  | _, s, .openRead p, r, s' => (r, s') = s.openRead p ∨ (F.opens ∧ r = none ∧ s' = s)
  | _, s, .openWrite p, r, s' => (r, s') = s.openWrite p ∨ (F.opens ∧ r = none ∧ s' = s)
  | _, s, .close _, _, s' => s' = s
  | _, s, .read fd len, r, s' =>
    s.ReadStep fd len r s' ∨ (F.reads ∧ r = none ∧ s' = s)
  | _, s, .write fd data, r, s' =>
    (∃ k, 0 < k ∧ k ≤ data.length ∧ r = some k ∧ s' = s.write fd (data.take k)) ∨
      (F.writes ∧ r = none ∧ s' = s)
  | _, s, .stat p, r, s' => s.StatStep p r ∧ s' = s
  | _, s, .mkdir p, r, s' => (r, s') = s.mkdir p ∨ (F.mkdirs ∧ r = .failed ∧ s' = s)
  | _, s, .realpath p, r, s' => r = s.realpath p ∧ s' = s
  | _, s, .opendir p, r, s' => (s.OpendirStep p r ∨ (F.opens ∧ r = none)) ∧ s' = s
  | _, s, .malloc _, r, s' => (r = true ∨ F.alloc) ∧ s' = s
  | _, s, .print line, _, s' => s' = { s with printed := s.printed ++ [line] }
  | _, s, .eprint line, _, s' => s' = { s with errors := s.errors ++ [line] }
  | _, _, .spin, _, _ => False

end Sys

end Posix
end IsrTransfer
