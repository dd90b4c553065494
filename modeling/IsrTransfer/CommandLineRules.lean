import IsrTransfer.ClientRules
import IsrTransfer.CommandLine
import IsrTransfer.Lz4.RoundTrip

/-!
# What the command line does

Three things are between the words of the command line and an operation of the client: the host
and the port, the options, and the decision which operation it is.

`parse_host_port` finds a host and a port exactly if they are there and fit into the buffers of
the caller, and the port is what follows the last colon (`parseHostPort_eq_some_iff`); so a host
may have colons in it, as an IPv6 address has.

The value of `-c` is a number of kilobytes, which is multiplied without a look at the result.  A
value between 1 and 2064384 becomes a block size that LZ4 can take (`blockSizeArg_fits`), and then
compressed blocks decompress to themselves (`Options.Fits.blocksOk`).  Other values are not ruled
out by the program, and so `SizesFit` is a condition of what is said about commands.

A command then runs one operation at most, from the world it was started in, for it has only
complained or asked for the kind of the local path before.  `SendRun` and `RecvRun` are the cases,
and what is said about a command is said for each of them, with the operation's own theorem.
-/

namespace IsrTransfer

open Effect Posix

/-! ## Host and port -/

theorem parseHostPort_append {host port : List UInt8} {hostLen portLen : Nat}
    (hport : colon ∉ port) :
    parseHostPort (host ++ colon :: port) hostLen portLen =
      if host.length = 0 then none
      else if hostLen ≤ host.length then none
      else if port.length = 0 ∨ portLen ≤ port.length then none else some (host, port) := by
  have hdrop : (host ++ colon :: port).drop (host.length + 1) = port := by
    rw [← List.drop_drop, List.drop_left]
    rfl
  rw [parseHostPort, strrchr_append hport]
  simp only [hdrop, List.take_left]

/-- **A host and a port are found if and only if they are there and fit**: the port is what follows
the last colon. -/
theorem parseHostPort_eq_some_iff {input host port : List UInt8} {hostLen portLen : Nat} :
    parseHostPort input hostLen portLen = some (host, port) ↔
      input = host ++ colon :: port ∧ colon ∉ port ∧
        (host ≠ [] ∧ host.length < hostLen) ∧ port ≠ [] ∧ port.length < portLen := by
  constructor
  · intro h
    cases hcolon : strrchr colon input with
    | none =>
      rw [parseHostPort, hcolon] at h
      cases h
    | some hlen =>
      obtain ⟨a, b, rfl, hb, -⟩ := strrchr_eq_some hcolon
      rw [parseHostPort_append hb] at h
      split at h
      · cases h
      split at h
      · cases h
      split at h
      · cases h
      case isFalse hempty hlong hbad =>
        cases h
        have hhost : host ≠ [] := fun hnil => hempty (congrArg List.length hnil)
        have hport : port ≠ [] := fun hnil => hbad (Or.inl (congrArg List.length hnil))
        exact ⟨rfl, hb, ⟨hhost, Nat.lt_of_not_le hlong⟩, hport,
          Nat.lt_of_not_le fun hle => hbad (Or.inr hle)⟩
  · rintro ⟨rfl, hcolon, ⟨hhost, hhostLen⟩, hport, hportLen⟩
    rw [parseHostPort_append hcolon, if_neg (mt List.eq_nil_of_length_eq_zero hhost),
      if_neg (Nat.not_le_of_lt hhostLen), if_neg]
    rintro (hempty | hlong)
    · exact hport (List.eq_nil_of_length_eq_zero hempty)
    · exact absurd hportLen (Nat.not_lt_of_le hlong)

/-! ## Options -/

/-- A block size that LZ4 can take, if there is one. -/
def Options.Fits (o : Options) : Prop :=
  hasFlag o.flags isrFlagUseCompression = true → 0 < o.blockSize ∧ o.blockSize ≤ lz4MaxInputSize

/-- Every value of `-c` is a number of kilobytes that LZ4 can take. -/
def SizesFit (args : List (List UInt8)) : Prop :=
  ∀ value, [optionC, value] <:+: args → 1 ≤ atoi value ∧ atoi value ≤ 2064384

theorem SizesFit.of_cons {arg : List UInt8} {args : List (List UInt8)}
    (h : SizesFit (arg :: args)) : SizesFit args :=
  fun value hvalue => h value (List.infix_cons hvalue)

theorem SizesFit.of_short {args : List (List UInt8)} (h : args.length < 2) : SizesFit args :=
  fun _ hvalue => absurd hvalue.length_le (Nat.not_le_of_lt h)

theorem blockSizeArg_fits {value : List UInt8} (hlow : 1 ≤ atoi value)
    (hhigh : atoi value ≤ 2064384) :
    0 < blockSizeArg value ∧ blockSizeArg value ≤ lz4MaxInputSize := by
  have hmod : atoi value * 1024 % 2 ^ 32 = atoi value * 1024 :=
    Int.emod_eq_of_lt (by omega) (by omega)
  rw [blockSizeArg, hmod, lz4MaxInputSize]
  omega

theorem hasFlag_overwrite {flags : UInt8} :
    hasFlag (flags ||| isrFlagOverwrite) isrFlagUseCompression =
      hasFlag flags isrFlagUseCompression := by
  have hand : (flags ||| isrFlagOverwrite) &&& isrFlagUseCompression =
      flags &&& isrFlagUseCompression := by
    apply UInt8.eq_of_toBitVec_eq
    have hbits : isrFlagOverwrite.toBitVec &&& isrFlagUseCompression.toBitVec = 0#8 := by decide
    rw [UInt8.toBitVec_and, UInt8.toBitVec_or, UInt8.toBitVec_and, BitVec.and_or_distrib_right,
      hbits, BitVec.or_zero]
  rw [hasFlag, hasFlag, hand]

/-- What holds of the options before the loop holds after it. -/
theorem parseOptions_fits {overwrite : Bool} {args : List (List UInt8)} {o o' : Options}
    (h : parseOptions overwrite args o = .ok o') (ho : o.Fits) (hsizes : SizesFit args) :
    o'.Fits := by
  fun_induction parseOptions overwrite args o with
  | case1 o =>
    cases h
    exact ho
  | case2 => cases h
  | case3 o value args ih =>
    obtain ⟨hlow, hhigh⟩ := hsizes value ⟨[], args, rfl⟩
    exact ih h (fun _ => blockSizeArg_fits hlow hhigh) hsizes.of_cons.of_cons
  | case4 arg args o _ _ ih =>
    refine ih h (fun hflag => ho ?_) hsizes.of_cons
    rwa [← hasFlag_overwrite]
  | case5 args o _ _ ih => exact ih h ho hsizes.of_cons
  | case6 => cases h

/-- It is `-r` that makes an operation recursive; a value of `-c` that fits is no `-r`. -/
theorem parseOptions_recursive_iff {overwrite : Bool} {args : List (List UInt8)} {o o' : Options}
    (h : parseOptions overwrite args o = .ok o') (hsizes : SizesFit args) :
    o'.recursive = true ↔ o.recursive = true ∨ optionR ∈ args := by
  fun_induction parseOptions overwrite args o with
  | case1 o =>
    cases h
    exact (or_iff_left List.not_mem_nil).symm
  | case2 => cases h
  | case3 o value args ih =>
    have hvalue : optionR ≠ value := by
      rintro rfl
      exact absurd (hsizes optionR ⟨[], args, rfl⟩).1 (by decide)
    have hcons : optionR ∈ optionC :: value :: args ↔ optionR ∈ args := by
      rw [List.mem_cons, or_iff_right (show optionR ≠ optionC by decide), List.mem_cons,
        or_iff_right hvalue]
    rw [hcons]
    exact ih h hsizes.of_cons.of_cons
  | case4 arg args o _ harg ih =>
    have hcons : optionR ∈ arg :: args ↔ optionR ∈ args := by
      rw [List.mem_cons, harg.2, or_iff_right (show optionR ≠ optionO by decide)]
    rw [hcons]
    exact ih h hsizes.of_cons
  | case5 args o _ _ ih =>
    exact (ih h hsizes.of_cons).trans
      (iff_of_true (Or.inl rfl) (Or.inr List.mem_cons_self))
  | case6 => cases h

/-- An option is no local directory. -/
theorem optionR_mem_recvLocalDir {args : List (List UInt8)} :
    optionR ∈ (recvLocalDir args).2 ↔ optionR ∈ args := by
  cases args with
  | nil => exact Iff.rfl
  | cons arg args =>
    rw [recvLocalDir]
    split
    case isTrue hdir =>
      have hne : optionR ≠ arg := fun heq => hdir (heq ▸ rfl)
      rw [List.mem_cons, or_iff_right hne]
    case isFalse => exact Iff.rfl

theorem Options.fits_initial : Options.initial.Fits := fun h => absurd h (by decide)

theorem Options.Fits.blocksOk {o : Options} (h : o.Fits) : BlocksOk lz4 o.flags o.blockSize :=
  fun hflag => blocksOk_lz4 (h hflag).1 (h hflag).2 hflag

/-! ## Commands

A command of the program reads its options and runs one operation, or complains and runs none.
`SendRun` and `RecvRun` say this for the two commands: an exit status of 0 comes from a run of
the operation with the arguments that were parsed, and that run is handed on as it is. -/

section Commands

variable {F : Faults} {lossy eof : Bool} {w : World}
variable {L : Lz4} {fuel depth : Nat} {hostport localPath remotePath : List UInt8}
variable {args : List (List UInt8)}

theorem Complains.trans {v u : World} (h : Complains w v) (h' : Complains v u) :
    Complains w u := by
  obtain ⟨lines, hlines, rfl⟩ := h
  obtain ⟨lines', hlines', rfl⟩ := h'
  refine ⟨lines ++ lines', fun line hline => ?_, ?_⟩
  · exact (List.mem_append.mp hline).elim (hlines line) (hlines' line)
  · rw [← List.append_assoc]
    rfl

theorem ensures_unknownOption {arg : List UInt8} {Q : Int → World → Prop}
    (hQ : ∀ v, Complains w v → Q 1 v) :
    Ensures (machine F lossy eof) Anything (unknownOption arg) Q w := by
  unfold unknownOption
  rw [ensures_bind]
  refine ensures_complain permits_anything (by decide) fun v hv => ?_
  rw [ensures_bind]
  exact ensures_complain permits_anything (by decide +kernel) fun u hu => hQ u (hv.trans hu)

/-- What a program has done is what it has done: the rule hands on a run of an operation that is
looked at later. -/
theorem ensures_run {σ : Type} {E : Env (NetOp OsOp) σ} {p : Prog Int} {w : σ} :
    Ensures E Anything p (fun r v => Reaches E p w (.ret r) v) w := by
  refine ensures_iff_reaches.mpr fun q v hq => ?_
  cases q with
  | ret r => exact hq
  | call op k => exact trivial

theorem isSome_of_not_isNone {α : Type} {o : Option α} (h : ¬o.isNone = true) : o.isSome = true :=
  Option.isSome_iff_ne_none.mpr fun hnone => h (Option.isNone_iff_eq_none.mpr hnone)

/-- What `isr send` has done: nothing, or it has run an operation from the world it was started in,
and its exit status is that of the operation. -/
inductive SendRun (E : Env (NetOp OsOp) World) (L : Lz4) (fuel depth : Nat)
    (hostport localPath remotePath : List UInt8) (args : List (List UInt8)) (w : World) (r : Int)
    (v : World) : Prop where
  | refused : r = 1 → Complains w v →
      SendRun E L fuel depth hostport localPath remotePath args w r v
  | file {o : Options} {ret : Int} {size : Nat} : parseOptions true args .initial = .ok o →
      (parseHostPort hostport 256 16).isSome → w.sys.StatStep localPath (some (false, size)) →
      r = exitCode ret →
      Reaches E (isrCliSendFile L fuel remotePath localPath o.flags o.blockSize) w (.ret ret) v →
      SendRun E L fuel depth hostport localPath remotePath args w r v
  | tree {o : Options} {ret : Int} {size : Nat} : parseOptions true args .initial = .ok o →
      (parseHostPort hostport 256 16).isSome → w.sys.StatStep localPath (some (true, size)) →
      o.recursive = true → r = exitCode ret →
      Reaches E (isrCliSendDirectory L fuel o.flags o.blockSize depth remotePath localPath) w
        (.ret ret) v →
      SendRun E L fuel depth hostport localPath remotePath args w r v

theorem ensures_cmdSend :
    Ensures (machine F lossy eof) Anything
      (cmdSend L fuel depth (hostport :: localPath :: remotePath :: args))
      (SendRun (machine F lossy eof) L fuel depth hostport localPath remotePath args w) w := by
  have hrefused : ∀ v, Complains w v →
      SendRun (machine F lossy eof) L fuel depth hostport localPath remotePath args w 1 v :=
    fun v hv => .refused rfl hv
  rw [cmdSend]
  split
  case h_1 arg hoptions => exact ensures_unknownOption hrefused
  case h_2 o hoptions =>
    split
    case isTrue hnone => exact ensures_complainFail permits_anything (by decide) hrefused
    case isFalse hsome =>
      have haddress := isSome_of_not_isNone hsome
      rw [ensures_bind, ensures_stat]
      refine ⟨trivial, fun r hr => ?_⟩
      rcases r with - | ⟨isDir, size⟩
      · exact ensures_complainFail permits_anything (by decide) hrefused
      · cases isDir with
        | true =>
          simp only [if_true]
          split
          case isTrue hflat => exact ensures_complainFail permits_anything (by decide) hrefused
          case isFalse hdeep =>
            rw [ensures_bind]
            refine ensures_run.mono fun ret v hv => ?_
            exact .tree hoptions haddress hr (Bool.eq_true_of_not_eq_false hdeep) rfl hv
        | false =>
          simp only [Bool.false_eq_true, if_false]
          rw [ensures_bind]
          exact ensures_run.mono fun ret v hv => .file hoptions haddress hr rfl hv

inductive RecvRun (E : Env (NetOp OsOp) World) (L : Lz4) (fuel depth : Nat)
    (hostport remotePath : List UInt8) (args : List (List UInt8)) (w : World) (r : Int)
    (v : World) : Prop where
  | refused : r = 1 → Complains w v → RecvRun E L fuel depth hostport remotePath args w r v
  | single {o : Options} {ret : Int} :
      parseOptions false (recvLocalDir args).2 .initial = .ok o →
      (parseHostPort hostport 256 16).isSome → o.recursive = false → r = exitCode ret →
      Reaches E (isrCliRecv L fuel remotePath (recvLocalDir args).1 o.flags o.blockSize) w
        (.ret ret) v →
      RecvRun E L fuel depth hostport remotePath args w r v
  | tree {o : Options} {ret : Int} :
      parseOptions false (recvLocalDir args).2 .initial = .ok o →
      (parseHostPort hostport 256 16).isSome → o.recursive = true → r = exitCode ret →
      Reaches E (isrCliDownloadDirectory L fuel o.flags o.blockSize depth remotePath
        (recvLocalDir args).1) w (.ret ret) v →
      RecvRun E L fuel depth hostport remotePath args w r v

theorem ensures_cmdRecv :
    Ensures (machine F lossy eof) Anything
      (cmdRecv L fuel depth (hostport :: remotePath :: args))
      (RecvRun (machine F lossy eof) L fuel depth hostport remotePath args w) w := by
  have hrefused : ∀ v, Complains w v →
      RecvRun (machine F lossy eof) L fuel depth hostport remotePath args w 1 v :=
    fun v hv => .refused rfl hv
  rw [cmdRecv]
  split
  case h_1 arg hoptions => exact ensures_unknownOption hrefused
  case h_2 o hoptions =>
    split
    case isTrue hnone => exact ensures_complainFail permits_anything (by decide) hrefused
    case isFalse hsome =>
      have haddress := isSome_of_not_isNone hsome
      split
      case isTrue hdeep =>
        rw [ensures_bind]
        exact ensures_run.mono fun ret v hv => .tree hoptions haddress hdeep rfl hv
      case isFalse hflat =>
        rw [ensures_bind]
        refine ensures_run.mono fun ret v hv => ?_
        exact .single hoptions haddress (Bool.eq_false_of_not_eq_true hflat) rfl hv

end Commands

theorem exitCode_eq_zero_iff {r : Int} : exitCode r = 0 ↔ r = 0 := by
  rw [exitCode]
  split
  case isTrue hne => exact iff_of_false (by decide) hne
  case isFalse heq => exact iff_of_true rfl (Decidable.not_not.mp heq)

end IsrTransfer
