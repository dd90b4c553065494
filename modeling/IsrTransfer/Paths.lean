import IsrTransfer.Protocol
import IsrTransfer.Posix.Machine

/-!
# Paths (`lib/isr.c`)

`isr_validate_path`, `isr_resolve_path`, `isr_mkdir_recursive` and `isr_parent_dir`.  A C string
is the list of its bytes before the terminator; a copy into a buffer of `n` bytes keeps the first
`n - 1` of them.

The loops go along the bytes as those of the source do.  `isr_validate_path` looks one byte
back, so its loop carries that byte; `isr_mkdir_recursive` puts a terminator into its buffer and
takes it out again, so its loop has the buffer in two parts, before and behind the position.
-/

namespace IsrTransfer

open Effect Posix

/-- The byte `\`. -/
def backslash : UInt8 := 0x5C

/-- The byte `.`. -/
def period : UInt8 := 0x2E

/-- What the scan of `isr_validate_path` takes for the end of a component. -/
def isSeparator (c : UInt8) : Bool := c = slash ∨ c = backslash

/-- The loop of `isr_validate_path` at `p`; `prev` is `p[-1]`, if `p` is not the
beginning. -/
def isrValidatePathLoop : (prev : Option UInt8) → (p : List UInt8) → Int
  | _, [] => 0
  | prev, c :: p =>
    if c = period ∧ p.head? = some period ∧ prev.all isSeparator ∧
        p.tail.head?.all isSeparator then -1
    else isrValidatePathLoop (some c) p

/-- `isr_validate_path`. -/
def isrValidatePath (path : List UInt8) : Int :=
  match path with
  | [] => -1
  | c :: p =>
    if isSeparator c then -1
    else isrValidatePathLoop none (c :: p)

/-- `strrchr`: the index of the last `c`. -/
def strrchr (c : UInt8) : List UInt8 → Option Nat
  | [] => none
  | b :: s =>
    match strrchr c s with
    | some i => some (i + 1)
    | none => if b = c then some 0 else none

/-- A copy into a buffer of `size` bytes. -/
def strncpy (src : List UInt8) (size : Nat) : List UInt8 := src.take (size - 1)

/-- `strncat(dst, src, sizeof(dst) - strlen(dst) - 1)` for a buffer of `size`
bytes. -/
def strncat (dst src : List UInt8) (size : Nat) : List UInt8 :=
  dst ++ src.take (size - dst.length - 1)

/-- `snprintf(buf, size, "%s/%s", dir, name)`, cut to the buffer. -/
def snprintfPath (dir name : List UInt8) (size : Nat) : List UInt8 :=
  (cstr dir ++ slash :: cstr name).take (size - 1)

theorem length_snprintfPath (dir name : List UInt8) (size : Nat) :
    (snprintfPath dir name size).length =
      min (size - 1) ((cstr dir).length + (1 + (cstr name).length)) := by
  rw [snprintfPath, List.length_take, List.length_append, List.length_cons, Nat.add_comm 1]

theorem notMem_snprintfPath (dir name : List UInt8) (size : Nat) :
    (0 : UInt8) ∉ snprintfPath dir name size := by
  intro h
  rcases List.mem_append.mp (List.mem_of_mem_take h) with h | h
  · exact notMem_cstr dir h
  · rcases List.mem_cons.mp h with h | h
    · exact absurd h (by decide)
    · exact notMem_cstr name h

/-- A path that fits is not cut. -/
theorem snprintfPath_of_short {dir name : List UInt8} {size : Nat} (hdir : (0 : UInt8) ∉ dir)
    (hname : (0 : UInt8) ∉ name) (hlen : (dir ++ slash :: name).length < size) :
    snprintfPath dir name size = dir ++ slash :: name := by
  rw [snprintfPath, cstr_of_notMem hdir, cstr_of_notMem hname]
  exact List.take_of_length_le (Nat.le_sub_one_of_lt hlen)

/-- `isr_resolve_path`; `none` is `-1`. -/
def isrResolvePath (root relative : List UInt8) (outSize : Nat) :
    Prog (Option (List UInt8)) := do
  let out := root ++ slash :: relative
  if outSize ≤ out.length then return none
  let tmp := strncpy out isrPathMax
  let resolved ←
    match strrchr slash tmp with
    | some (i + 1) => do
      let basename := strncpy (tmp.drop (i + 2)) isrPathMax
      match ← sysCall (.realpath (tmp.take (i + 1))) with
      | none => pure (strncpy out isrPathMax)
      | some rp => pure (strncat (strncat rp [slash] isrPathMax) basename isrPathMax)
    | _ => do
      match ← sysCall (.realpath out) with
      | none => pure (strncpy out isrPathMax)
      | some rp => pure rp
  if root.isPrefixOf resolved = false then return none
  return some (strncpy resolved outSize)

/-- The loop of `isr_mkdir_recursive`: `done` is the buffer before `p`, and
`rest` what follows. -/
def isrMkdirRecursiveLoop : (done rest : List UInt8) → Prog Int
  | done, [] => do
    match ← sysCall (.mkdir done) with
    | .failed => return -1
    | _ => return 0
  | done, c :: rest => do
    if c = slash ∨ c = backslash then
      let _ ← sysCall (.mkdir done)
      isrMkdirRecursiveLoop (done ++ [slash]) rest
    else isrMkdirRecursiveLoop (done ++ [c]) rest

/-- `isr_mkdir_recursive`. -/
def isrMkdirRecursive (path : List UInt8) : Prog Int :=
  let tmp := strncpy path isrPathMax
  isrMkdirRecursiveLoop (tmp.take 1) (tmp.drop 1)

/-- `isr_parent_dir`; `none` is `-1`. -/
def isrParentDir (path : List UInt8) (outSize : Nat) : Option (List UInt8) :=
  let out := path.take (min path.length (outSize - 1))
  (strrchr slash out).map out.take

end IsrTransfer
