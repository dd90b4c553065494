import IsrTransfer.Client
import IsrTransfer.Resolution

/-!
# The command line (`main.c`, `lib/hostport.h`)

`isr send` and `isr recv`: what they make of their arguments, and which operation of the client
they run with it.  Host and port have to be there and to fit their buffers; the operations do not
read them (see `Client`).

The options come last, and the loop over them stops at the first that it does not know.  Of the
two commands only `isr send` has `-o`, and only `isr recv` has an optional argument before the
options, the local directory: it is taken for an option if it begins with a dash.  The value of
`-c` goes through `atoi` and is multiplied by 1024 in 32 bits, with nothing between that looks
whether the number makes sense.
-/

namespace IsrTransfer

open Effect Posix

/-! ## Texts -/

def colon : UInt8 := 0x3A

/-- `parse_host_port`, into buffers of `hostLen` and `portLen` bytes. -/
def parseHostPort (input : List UInt8) (hostLen portLen : Nat) :
    Option (List UInt8 × List UInt8) :=
  match strrchr colon input with
  | none => none
  | some hlen =>
    if hlen = 0 then none
    else if hostLen ≤ hlen then none
    else
      let p := input.drop (hlen + 1)
      if p.length = 0 ∨ portLen ≤ p.length then none else some (input.take hlen, p)

def isSpace (c : UInt8) : Bool := c = 0x20 ∨ 0x09 ≤ c ∧ c ≤ 0x0D

/-- The number that the digits at the beginning of a text make of `n`. -/
def atoiDigits (n : Nat) : List UInt8 → Nat
  | [] => n
  | c :: s => if 0x30 ≤ c ∧ c ≤ 0x39 then atoiDigits (10 * n + (c.toNat - 0x30)) s else n

/-- `atoi`; what it does with a number that no `int` can hold is undefined. -/
def atoi (s : List UInt8) : Int :=
  match s.dropWhile isSpace with
  | [] => 0
  | c :: s =>
    if c = 0x2D then -(atoiDigits 0 s : Int)
    else if c = 0x2B then atoiDigits 0 s
    else atoiDigits 0 (c :: s)

/-! ## Options -/

def optionC : List UInt8 := [0x2D, 0x63]

def optionO : List UInt8 := [0x2D, 0x6F]

def optionR : List UInt8 := [0x2D, 0x72]

structure Options where
  flags : UInt8
  blockSize : Nat
  recursive : Bool
  deriving DecidableEq

/-- The variables before the options are read. -/
def Options.initial : Options := ⟨0, 0, false⟩

/-- `(uint32_t)atoi(value) * 1024`. -/
def blockSizeArg (value : List UInt8) : Nat := (atoi value * 1024 % 2 ^ 32).toNat

/-- The loop over the options; only `cmd_send` has `-o`.  An error is an unknown option. -/
def parseOptions (overwrite : Bool) : List (List UInt8) → Options → Except (List UInt8) Options
  | [], o => .ok o
  | arg :: args, o =>
    if arg = optionC then
      match args with
      | [] => .error arg
      | value :: args =>
        parseOptions overwrite args
          { o with blockSize := blockSizeArg value, flags := o.flags ||| isrFlagUseCompression }
    else if overwrite = true ∧ arg = optionO then
      parseOptions overwrite args { o with flags := o.flags ||| isrFlagOverwrite }
    else if arg = optionR then parseOptions overwrite args { o with recursive := true }
    else .error arg

/-! ## Commands -/

def usage : Prog Unit :=
  complain
    ("Usage:\n" ++
      "  isr serve <directory> [-p port]\n" ++
      "  isr send <host:port> <local_path> <remote_path> [-c blocksize] [-o] [-r]\n" ++
      "  isr recv <host:port> <remote_path> [local_dir] [-c blocksize] [-r]\n" ++
      "\n" ++
      "Options:\n" ++
      "  -p port       Port to listen on (default: 42069)\n" ++
      "  -c blocksize  Enable LZ4 compression with given block size in KB\n" ++
      "  -o            Overwrite existing files\n" ++
      "  -r            Recursive mode (upload/download entire directory trees)\n" ++
      "\n" ++
      "Send notes:\n" ++
      "  - Without -r: sends a single file\n" ++
      "  - With -r: uploads entire directory trees\n" ++
      "\n" ++
      "Recv notes:\n" ++
      "  - local_dir: Directory to save files (defaults to current directory)\n" ++
      "  - Without -r: directories show listings, files are downloaded\n" ++
      "  - With -r: entire directory trees are downloaded\n") []

/-- `return isr_cli_... != 0 ? 1 : 0`. -/
def exitCode (r : Int) : Int := if r ≠ 0 then 1 else 0

/-- An option that does not exist. -/
def unknownOption (arg : List UInt8) : Prog Int := do
  complain "Unknown option: %s\n" [.str arg]
  usage
  return 1

/-- `cmd_send`. -/
def cmdSend (L : Lz4) (fuel depth : Nat) : (args : List (List UInt8)) → Prog Int
  | hostport :: localPath :: remotePath :: args =>
    match parseOptions true args .initial with
    | .error arg => unknownOption arg
    | .ok o => do
      if (parseHostPort hostport 256 16).isNone then
        complain "Invalid host:port format: %s\n" [.str hostport]
        return 1
      match ← isrStat localPath with
      | none =>
        complain "Error: '%s' does not exist\n" [.str localPath]
        return 1
      | some (isDir, _) =>
        if isDir then
          if o.recursive = false then
            complain "Error: '%s' is a directory (use -r for recursive send)\n" [.str localPath]
            return 1
          let r ← isrCliSendDirectory L fuel o.flags o.blockSize depth remotePath localPath
          return exitCode r
        else
          let r ← isrCliSendFile L fuel remotePath localPath o.flags o.blockSize
          return exitCode r
  | _ => do
    usage
    return 1

/-- The local directory, if the first of the optional arguments is not an option. -/
def recvLocalDir : (args : List (List UInt8)) → List UInt8 × List (List UInt8)
  | [] => (dot, [])
  | arg :: args => if arg.headD 0 ≠ 0x2D then (arg, args) else (dot, arg :: args)

/-- `cmd_recv`. -/
def cmdRecv (L : Lz4) (fuel depth : Nat) : (args : List (List UInt8)) → Prog Int
  | hostport :: remotePath :: args =>
    match parseOptions false (recvLocalDir args).2 .initial with
    | .error arg => unknownOption arg
    | .ok o => do
      if (parseHostPort hostport 256 16).isNone then
        complain "Invalid host:port format: %s\n" [.str hostport]
        return 1
      if o.recursive then
        let r ← isrCliDownloadDirectory L fuel o.flags o.blockSize depth remotePath
          (recvLocalDir args).1
        return exitCode r
      else
        let r ← isrCliRecv L fuel remotePath (recvLocalDir args).1 o.flags o.blockSize
        return exitCode r
  | _ => do
    usage
    return 1

end IsrTransfer
