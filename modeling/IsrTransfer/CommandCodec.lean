import IsrTransfer.CommandRules

/-!
# A command survives the wire

What `isr_receive_command` reads is compared with what the client meant.  The bytes of a
command carry the length of its path in sixteen bits, and so many bytes of the path; the
server has a buffer for 4095 of them.

A path below either limit arrives as it is.  One between the limits is refused.  Beyond
both, the length wraps around: the server is told `length % 65536` and takes that
beginning of the path for the whole, unless the remainder is too long for it again.  So
the law holds for a path exactly if it is shorter than 65536 bytes or the remainder is
at least 4096 (`command_codec`).
-/

namespace IsrTransfer

open Effect Posix

variable {F : Faults} {lossy eof : Bool} {w : World}

/-! ## The law -/

/-- The bytes that `transmit` puts on the wire, if it succeeds, are read as the command
`cmd` or not at all, whatever follows them; and if they are, nothing but them has been
received. -/
def CodecKeeps (transmit : Prog Int) (cmd : Command) : Prop :=
  ∀ (F : Faults) (lossy eof : Bool) (c v : World) (r : Int),
    Reaches (machine F lossy eof) transmit c (.ret r) v → r = -1 ∨
      ∃ bytes, v = c.sent bytes ∧ ∀ (G : Faults) (lossy' eof' : Bool) (w u : World)
        (rest : List UInt8) (d : Option Command), w.rx = bytes ++ rest →
        Reaches (machine G lossy' eof') isrReadCommand w (.ret d) u →
        d = none ∨ (d = some cmd ∧ u = w.received bytes.length)

/-- The rule for a client that sends `bytes`. -/
def Transmits (transmit : Prog Int) (bytes : List UInt8) : Prop :=
  ∀ (F : Faults) (lossy eof : Bool) (A : Guard (NetOp OsOp) World) (c : World)
    (Q : Int → World → Prop), Permits A → Q 0 (c.sent bytes) →
    (lossy → ∀ data, Q (-1) (c.sent data)) → Ensures (machine F lossy eof) A transmit Q c

/-- The rule for a server that reads `bytes` as `cmd` if they fit, and refuses them if
they do not. -/
def ReadAs (bytes : List UInt8) (fits : Prop) (cmd : Command) : Prop :=
  ∀ (F : Faults) (lossy eof : Bool) (A : Guard (NetOp OsOp) World) (w : World)
    (rest : List UInt8) (Q : Option Command → World → Prop), Permits A →
    w.rx = bytes ++ rest →
    (∀ k room len, 0 < len → len ≤ room → k + len ≤ w.rx.length →
      A (w.received k) (.recv room len)) →
    (lossy → ∀ k, Q none (w.received k)) → (¬ fits → ∀ k, Q none (w.received k)) →
    (fits → Q (some cmd) (w.received bytes.length)) →
    Ensures (machine F lossy eof) A isrReadCommand Q w

section Law

variable {transmit : Prog Int} {bytes : List UInt8} {fits : Prop} {cmd cmd' : Command}

theorem Transmits.exists_sent (h : Transmits transmit bytes) : ∃ c r v,
    Reaches (machine Faults.none false false) transmit c (.ret r) v ∧ r ≠ -1 := by
  have hterm : Terminates (machine Faults.none false false) transmit (fun r _ => r ≠ -1)
      (Proc.start (.initial .empty) []) :=
    h _ _ _ _ _ _ (permits_answered _ _ _) (by decide) fun hl => absurd hl (by decide)
  obtain ⟨r, v, hrun, hr⟩ := hterm.exists_ret
  exact ⟨_, r, v, hrun, hr⟩

/-- A command that fits is not refused. -/
theorem ReadAs.terminates (h : ReadAs bytes fits cmd) (hfits : fits) {eof : Bool} {w : World}
    {rest : List UInt8} (hw : w.rx = bytes ++ rest) :
    Terminates (machine F false eof) isrReadCommand (fun d _ => d ≠ none) w :=
  h _ _ _ _ _ _ _ (permits_answered _ _ _) hw
    (fun _ _ _ hpos _ hk => answered_recv_within hpos hk) (fun hl => absurd hl (by decide))
    (fun hnot => absurd hfits hnot) fun _ => by simp

/-- What decides about the law is which command the bytes are read as. -/
theorem codecKeeps_iff (hsend : Transmits transmit bytes) (hread : ReadAs bytes fits cmd') :
    CodecKeeps transmit cmd ↔ (fits → cmd' = cmd) := by
  have hsent : ∀ {F : Faults} {lossy eof : Bool} {c v : World} {r : Int},
      Reaches (machine F lossy eof) transmit c (.ret r) v → r = -1 ∨ v = c.sent bytes := by
    intro F lossy eof c v r hrun
    have hrule : Ensures (machine F lossy eof) Anything transmit
        (fun r v => r = -1 ∨ v = c.sent bytes) c :=
      hsend _ _ _ _ _ _ permits_anything (Or.inr rfl) fun _ _ => Or.inl rfl
    exact hrule.of_reaches hrun
  have hgot : ∀ {F : Faults} {lossy eof : Bool} {w u : World} {rest : List UInt8}
      {d : Option Command}, w.rx = bytes ++ rest →
      Reaches (machine F lossy eof) isrReadCommand w (.ret d) u →
      d = none ∨ (fits ∧ d = some cmd' ∧ u = w.received bytes.length) := by
    intro F lossy eof w u rest d hw hreads
    have hrule : Ensures (machine F lossy eof) Anything isrReadCommand
        (fun d u => d = none ∨ (fits ∧ d = some cmd' ∧ u = w.received bytes.length)) w :=
      hread _ _ _ _ _ _ _ permits_anything hw (fun _ _ _ _ _ _ => trivial)
        (fun _ _ => Or.inl rfl) (fun _ _ => Or.inl rfl) fun hfits => Or.inr ⟨hfits, rfl, rfl⟩
    exact hrule.of_reaches hreads
  constructor
  · intro hkeeps hfits
    obtain ⟨c, r, v, hrun, hr⟩ := hsend.exists_sent
    obtain ⟨bytes', hv, hall⟩ := (hkeeps _ _ _ c v r hrun).resolve_left hr
    obtain rfl : bytes' = bytes := by
      have htx := congrArg Proc.tx (hv.symm.trans ((hsent hrun).resolve_left hr))
      exact List.append_cancel_left htx
    obtain ⟨w, hw⟩ : ∃ w : World, w.rx = bytes' ++ [] := ⟨Proc.start (.initial .empty) _, rfl⟩
    obtain ⟨d, u, hreads, hd⟩ :=
      (@ReadAs.terminates Faults.none _ _ _ hread hfits false w _ hw).exists_ret
    have hcmd := ((hall _ _ _ _ u [] d hw hreads).resolve_left hd).1
    have hcmd' := ((hgot hw hreads).resolve_left hd).2.1
    exact Option.some.inj (hcmd'.symm.trans hcmd)
  · intro hcmd F lossy eof c v r hrun
    rcases hsent hrun with hr | hv
    · exact Or.inl hr
    · refine Or.inr ⟨bytes, hv, fun G lossy' eof' w u rest d hw hreads => ?_⟩
      rcases hgot hw hreads with hd | ⟨hfits, hd, hu⟩
      · exact Or.inl hd
      · exact Or.inr ⟨by rw [hd, hcmd hfits], hu⟩

end Law

/-! ## What the server reads -/

section Reads

variable {A : Guard (NetOp OsOp) World} {Q : Option Command → World → Prop}
variable {path rest : List UInt8} {flags : UInt8} {blockSize n : Nat}

theorem ensures_read_send (hP : Permits A)
    (hw : w.rx = sendCommandBytes path flags blockSize n ++ rest)
    (hrecv : ∀ k room len, 0 < len → len ≤ room → k + len ≤ w.rx.length →
      A (w.received k) (.recv room len))
    (hlossy : lossy → ∀ k, Q none (w.received k))
    (hlong : isrPathMax ≤ pathLen path → ∀ k, Q none (w.received k))
    (hok : pathLen path < isrPathMax →
      Q (some (.send ⟨flags, pathLen path, blockSize % 256 ^ 4, n % 256 ^ 8⟩
        (cstr (path.take (pathLen path))))) (w.received (16 + pathLen path))) :
    Ensures (machine F lossy eof) A isrReadCommand Q w := by
  have hhead : w.rx.head? = some isrCommandSend := by rw [hw]; rfl
  have hheader : sendHeader w.rx = ⟨flags, pathLen path, blockSize % 256 ^ 4, n % 256 ^ 8⟩ := by
    rw [hw, sendHeader_sendCommandBytes]
  have hpath : sendPath w.rx = path.take (pathLen path) := by
    rw [hw, sendPath_sendCommandBytes]
  have hle : commandLength w.rx ≤ 16 + pathLen path := by
    rw [hw]
    exact commandLength_sendCommandBytes _ _ _ _ _
  have hlen : 16 + pathLen path ≤ w.rx.length := by
    rw [hw, List.length_append, length_sendCommandBytes]
    omega
  refine ensures_isrReadCommand hP ?_
  constructor
  · exact fun k room len _ hpos hroom hk => hrecv k room len hpos hroom (by omega)
  · intro k hk hlt hl
    rcases hl with hl | ⟨-, hl⟩
    · exact hlossy hl k
    · omega
  · intro k _ _ hcase
    rw [hheader, hhead] at hcase
    refine hlong ?_ k
    rcases hcase with ⟨-, h⟩ | ⟨h, -⟩
    · exact h
    · exact absurd (Option.some.inj h) (by decide)
  · intro cmd rest' hrx hne
    rw [hrx] at hhead
    exact absurd (Option.some.inj hhead) hne
  · intro _ hlt _
    rw [hheader, hpath]
    rw [hheader] at hlt
    exact hok hlt
  · intro hrecv'
    rw [hhead] at hrecv'
    exact absurd (Option.some.inj hrecv') (by decide)

theorem ensures_read_recv (hP : Permits A)
    (hw : w.rx = recvCommandBytes path flags blockSize ++ rest)
    (hrecv : ∀ k room len, 0 < len → len ≤ room → k + len ≤ w.rx.length →
      A (w.received k) (.recv room len))
    (hlossy : lossy → ∀ k, Q none (w.received k))
    (hlong : isrPathMax ≤ pathLen path → ∀ k, Q none (w.received k))
    (hok : pathLen path < isrPathMax →
      Q (some (.recv ⟨flags, pathLen path, blockSize % 256 ^ 4⟩
        (cstr (path.take (pathLen path))))) (w.received (8 + pathLen path))) :
    Ensures (machine F lossy eof) A isrReadCommand Q w := by
  have hhead : w.rx.head? = some isrCommandRecv := by rw [hw]; rfl
  have hheader : recvHeader w.rx = ⟨flags, pathLen path, blockSize % 256 ^ 4⟩ := by
    rw [hw, recvHeader_recvCommandBytes]
  have hpath : recvPath w.rx = path.take (pathLen path) := by
    rw [hw, recvPath_recvCommandBytes]
  have hle : commandLength w.rx ≤ 8 + pathLen path := by
    rw [hw]
    exact commandLength_recvCommandBytes _ _ _ _
  have hlen : 8 + pathLen path ≤ w.rx.length := by
    rw [hw, List.length_append, length_recvCommandBytes]
    omega
  refine ensures_isrReadCommand hP ?_
  constructor
  · exact fun k room len _ hpos hroom hk => hrecv k room len hpos hroom (by omega)
  · intro k hk hlt hl
    rcases hl with hl | ⟨-, hl⟩
    · exact hlossy hl k
    · omega
  · intro k _ _ hcase
    rw [hheader, hhead] at hcase
    refine hlong ?_ k
    rcases hcase with ⟨h, -⟩ | ⟨-, h⟩
    · exact absurd (Option.some.inj h) (by decide)
    · exact h
  · intro cmd rest' hrx _ hne
    rw [hrx] at hhead
    exact absurd (Option.some.inj hhead) hne
  · intro hsend'
    rw [hhead] at hsend'
    exact absurd (Option.some.inj hsend') (by decide)
  · intro _ hlt _
    rw [hheader, hpath]
    rw [hheader] at hlt
    exact hok hlt

end Reads

/-! ## Which paths arrive -/

/-- The path is not longer than its length can say, or else it is refused for the length
that is said. -/
def PathFits (path : List UInt8) : Prop :=
  path.length < 65536 ∨ isrPathMax ≤ path.length % 65536

instance : DecidablePred PathFits := fun path =>
  inferInstanceAs (Decidable (path.length < 65536 ∨ isrPathMax ≤ path.length % 65536))

/-- The whole path arrives exactly if its length can be said. -/
theorem take_pathLen_iff {path : List UInt8} (hnul : 0 ∉ path) :
    (pathLen path = path.length ∧ cstr (path.take (pathLen path)) = path) ↔
      path.length < 65536 := by
  unfold pathLen
  constructor
  · rintro ⟨h, -⟩
    omega
  · intro h
    rw [Nat.mod_eq_of_lt h, List.take_length]
    exact ⟨rfl, cstr_of_notMem hnul⟩

/-- The condition, as a statement about the length that is said. -/
theorem pathFits_iff (path : List UInt8) :
    PathFits path ↔ (pathLen path < isrPathMax → path.length < 65536) := by
  unfold PathFits pathLen
  omega

theorem transmits_send (path : List UInt8) (flags : UInt8) (blockSize n : Nat) :
    Transmits (isrTransmitSendCommand path flags blockSize n)
      (sendCommandBytes path flags blockSize n) :=
  fun _ _ _ _ _ _ hP hok hfail => ensures_isrTransmitSendCommand hP hok hfail

theorem readAs_send (path : List UInt8) (flags : UInt8) (blockSize n : Nat) :
    ReadAs (sendCommandBytes path flags blockSize n) (pathLen path < isrPathMax)
      (.send ⟨flags, pathLen path, blockSize % 256 ^ 4, n % 256 ^ 8⟩
        (cstr (path.take (pathLen path)))) := by
  intro F lossy eof A w rest Q hP hw hrecv hlossy hlong hok
  rw [length_sendCommandBytes] at hok
  exact ensures_read_send hP hw hrecv hlossy (fun h => hlong (Nat.not_lt.mpr h)) hok

theorem transmits_recv (path : List UInt8) (flags : UInt8) (blockSize : Nat) :
    Transmits (isrTransmitRecvCommand path flags blockSize)
      (recvCommandBytes path flags blockSize) :=
  fun _ _ _ _ _ _ hP hok hfail => ensures_isrTransmitRecvCommand hP hok hfail

theorem readAs_recv (path : List UInt8) (flags : UInt8) (blockSize : Nat) :
    ReadAs (recvCommandBytes path flags blockSize) (pathLen path < isrPathMax)
      (.recv ⟨flags, pathLen path, blockSize % 256 ^ 4⟩ (cstr (path.take (pathLen path)))) := by
  intro F lossy eof A w rest Q hP hw hrecv hlossy hlong hok
  rw [length_recvCommandBytes] at hok
  exact ensures_read_recv hP hw hrecv hlossy (fun h => hlong (Nat.not_lt.mpr h)) hok

theorem sendCodec_iff {path : List UInt8} (flags : UInt8) {blockSize n : Nat}
    (hnul : 0 ∉ path) (hblock : blockSize < 2 ^ 32) (hn : n < 2 ^ 64) :
    CodecKeeps (isrTransmitSendCommand path flags blockSize n)
      (.send ⟨flags, path.length, blockSize, n⟩ path) ↔ PathFits path := by
  rw [codecKeeps_iff (transmits_send path flags blockSize n) (readAs_send path flags blockSize n),
    pathFits_iff, Nat.mod_eq_of_lt (by omega), Nat.mod_eq_of_lt (by omega)]
  refine imp_congr_right fun _ => ?_
  rw [← take_pathLen_iff hnul]
  simp

theorem recvCodec_iff {path : List UInt8} (flags : UInt8) {blockSize : Nat}
    (hnul : 0 ∉ path) (hblock : blockSize < 2 ^ 32) :
    CodecKeeps (isrTransmitRecvCommand path flags blockSize)
      (.recv ⟨flags, path.length, blockSize⟩ path) ↔ PathFits path := by
  rw [codecKeeps_iff (transmits_recv path flags blockSize) (readAs_recv path flags blockSize),
    pathFits_iff, Nat.mod_eq_of_lt (by omega)]
  refine imp_congr_right fun _ => ?_
  rw [← take_pathLen_iff hnul]
  simp

/-- **The codec of the commands.**  The law holds for a path exactly if its length can be
said in sixteen bits, or the length that is said instead is refused.  A path that fits
the server's buffer is not refused, as long as the network does not fail. -/
theorem command_codec (path : List UInt8) (flags : UInt8) (blockSize n : Nat)
    (hnul : 0 ∉ path) (hblock : blockSize < 2 ^ 32) (hn : n < 2 ^ 64) :
    (CodecKeeps (isrTransmitSendCommand path flags blockSize n)
        (.send ⟨flags, path.length, blockSize, n⟩ path) ↔ PathFits path) ∧
      (CodecKeeps (isrTransmitRecvCommand path flags blockSize)
        (.recv ⟨flags, path.length, blockSize⟩ path) ↔ PathFits path) ∧
      (path.length < isrPathMax → ∀ (F : Faults) (eof : Bool) (w : World) (rest : List UInt8),
        (w.rx = sendCommandBytes path flags blockSize n ++ rest ∨
          w.rx = recvCommandBytes path flags blockSize ++ rest) →
        Terminates (machine F false eof) isrReadCommand (fun d _ => d ≠ none) w) := by
  refine ⟨sendCodec_iff flags hnul hblock hn, recvCodec_iff flags hnul hblock, ?_⟩
  intro hlen F eof w rest hw
  have hlt : pathLen path < isrPathMax := Nat.lt_of_le_of_lt (pathLen_le path) hlen
  rcases hw with hw | hw
  · exact (readAs_send path flags blockSize n).terminates hlt hw
  · exact (readAs_recv path flags blockSize).terminates hlt hw

/-- A path of one byte. -/
theorem command_codec_oneByte :
    CodecKeeps (isrTransmitSendCommand [0x66] 3 4096 5) (.send ⟨3, 1, 4096, 5⟩ [0x66]) ∧
      CodecKeeps (isrTransmitRecvCommand [0x66] 3 4096) (.recv ⟨3, 1, 4096⟩ [0x66]) := by
  obtain ⟨hsend, hrecv, -⟩ := command_codec [0x66] 3 4096 5 (by decide) (by decide)
    (by decide)
  exact ⟨hsend.mpr (by decide), hrecv.mpr (by decide)⟩

/-- A path of 65537 bytes: the server is asked for its first byte. -/
theorem command_codec_wraps :
    ¬ CodecKeeps (isrTransmitSendCommand (List.replicate 65537 0x66) 0 4096 5)
      (.send ⟨0, 65537, 4096, 5⟩ (List.replicate 65537 0x66)) := by
  have hlen : (List.replicate 65537 (0x66 : UInt8)).length = 65537 := List.length_replicate
  have hnul : (0 : UInt8) ∉ List.replicate 65537 (0x66 : UInt8) := by
    intro h
    exact absurd (List.eq_of_mem_replicate h) (by decide)
  have hiff := @sendCodec_iff _ 0 4096 5 hnul (by decide) (by decide)
  rw [hlen] at hiff
  rw [hiff, PathFits, hlen]
  decide

end IsrTransfer
