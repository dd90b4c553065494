import IsrTransfer.Data.Outcome
import IsrTransfer.Lz4.Memory

/-!
# What the copies write

Every copy is described by what the output begins with afterwards (`Lz4Holds`): a copy that writes
more than it was asked for is described by the part that counts.  `Feeds` is what the wild copies
have in common, wherever they read from.

A wild copy makes steps of eight or sixteen bytes and stops behind the position it was given.  For
one from the block it is enough that the bytes of the block are there; for one from the output
each step reads what earlier ones have written.  `Feeds` asks for a single step what it writes, in
terms of the content that is to come out, and the loops go through on that alone
(`Feeds.wildCopy8`, `Feeds.wildCopy32`, `Feeds.copyBytes`).
-/

namespace IsrTransfer

open Buffer Outcome

/-- A memory of `cap` bytes that begins with `out`. -/
def Lz4Holds (cap : Nat) (out dst : List UInt8) : Prop := dst.length = cap ∧ out <+: dst

section Copies

variable {cap : Nat} {out dst : List UInt8} {d s e n fuel : Nat}

theorem Lz4Holds.mono {less : List UInt8} (h : Lz4Holds cap out dst) (hless : less <+: out) :
    Lz4Holds cap less dst :=
  ⟨h.1, hless.trans h.2⟩

theorem Lz4Holds.length_le (h : Lz4Holds cap out dst) : out.length ≤ cap := h.1 ▸ h.2.length_le

/-- What is read from the part that is known. -/
theorem Lz4Holds.slice (h : Lz4Holds cap out dst) (hn : s + n ≤ out.length) :
    Buffer.slice dst s n = Buffer.slice out s n := by
  rw [← slice_take hn, ← List.prefix_iff_eq_take.mp h.2]

theorem holds_lz4Write {bytes : List UInt8} (h : Lz4Holds cap out dst) (hd : d = out.length)
    (hcap : d + bytes.length ≤ cap) :
    Yields (lz4Write dst d bytes) (Lz4Holds cap (out ++ bytes)) := by
  subst hd
  have hle : out.length + bytes.length ≤ dst.length := h.1 ▸ hcap
  rw [lz4Write, if_pos hle]
  refine .pure ⟨(length_splice hle).trans h.1, ?_⟩
  have htake := take_splice (c := bytes) h.2.length_le
  rw [← List.prefix_iff_eq_take.mp h.2] at htake
  exact htake ▸ List.take_prefix _ _

theorem holds_lz4Memcpy_block {src : List UInt8} (h : Lz4Holds cap out dst) (hd : d = out.length)
    (hs : s + n ≤ src.length) (hcap : d + n ≤ cap) :
    Yields (lz4Memcpy (.block src) dst d s n) (Lz4Holds cap (out ++ slice src s n)) := by
  rw [lz4Memcpy, if_pos hs]
  refine holds_lz4Write h hd ?_
  rwa [length_slice hs]

/-! ## Wild copies -/

/-- Up to `reach` bytes at a time may be copied from `s` to `d`, and on up to `lim`; what the
output then holds up to a position is `content`. -/
def Feeds (cap reach lim : Nat) (src : Lz4From) (content : Nat → List UInt8) (d s : Nat) : Prop :=
  ∀ i m dst, m ≤ reach → d + i + m ≤ lim → Lz4Holds cap (content (d + i)) dst →
    Yields (lz4Memcpy src dst (d + i) (s + i) m) (Lz4Holds cap (content (d + i + m)))

section Feeds

variable {reach lim : Nat} {src : Lz4From} {content : Nat → List UInt8}

theorem Feeds.add (h : Feeds cap reach lim src content d s) (m : Nat) :
    Feeds cap reach lim src content (d + m) (s + m) := by
  intro i
  rw [Nat.add_assoc d, Nat.add_assoc s]
  exact h (m + i)

theorem Feeds.memcpy (h : Feeds cap reach lim src content d s) (hn : n ≤ reach)
    (hlim : d + n ≤ lim) (hdst : Lz4Holds cap (content d) dst) :
    Yields (lz4Memcpy src dst d s n) (Lz4Holds cap (content (d + n))) :=
  h 0 n dst hn hlim hdst

theorem feeds_block {block : List UInt8} (hd : d = out.length) (hlim : lim ≤ cap)
    (hs : s + (lim - d) ≤ block.length) :
    Feeds cap reach lim (.block block) (fun p => out ++ slice block s (p - d)) d s := by
  intro i m dst _ hm hdst
  have hlen : (slice block s i).length = i := length_slice (by omega)
  have hout : d + i = (out ++ slice block s (d + i - d)).length := by
    rw [List.length_append, Nat.add_sub_cancel_left, hlen, hd]
  have hcopy := holds_lz4Memcpy_block hdst hout (by omega : s + i + m ≤ block.length) (by omega)
  have heq : out ++ slice block s (d + i - d) ++ slice block (s + i) m =
      out ++ slice block s (d + i + m - d) := by
    rw [List.append_assoc, Nat.add_sub_cancel_left, ← slice_add, Nat.add_assoc,
      Nat.add_sub_cancel_left]
  rwa [heq] at hcopy

variable (hmono : ∀ {p q}, p ≤ q → content p <+: content q)

include hmono

theorem Feeds.wildCopy8 (h : Feeds cap reach lim src content d s) (hreach : 8 ≤ reach)
    (hdst : Lz4Holds cap (content d) dst) (hd : d + 8 ≤ lim) (he : e + 7 ≤ lim) (hfuel : 0 < fuel)
    (hf : e ≤ d + fuel) : Yields (lz4WildCopy8 src e fuel dst d s) (Lz4Holds cap (content e)) := by
  induction fuel generalizing dst d s with
  | zero => exact absurd hfuel (Nat.lt_irrefl 0)
  | succ fuel ih =>
    refine (h.memcpy hreach hd hdst).bind fun dst' hdst' => ?_
    split
    case isTrue hlt => exact ih (h.add 8) hdst' (by omega) (by omega) (by omega)
    case isFalse hge => exact .pure (hdst'.mono (hmono (Nat.le_of_not_lt hge)))

theorem Feeds.wildCopy32 (h : Feeds cap reach lim src content d s) (hreach : 16 ≤ reach)
    (hdst : Lz4Holds cap (content d) dst) (hd : d + 32 ≤ lim) (he : e + 31 ≤ lim) (hfuel : 0 < fuel)
    (hf : e ≤ d + fuel) : Yields (lz4WildCopy32 src e fuel dst d s) (Lz4Holds cap (content e)) := by
  induction fuel generalizing dst d s with
  | zero => exact absurd hfuel (Nat.lt_irrefl 0)
  | succ fuel ih =>
    refine (h.memcpy hreach (by omega) hdst).bind fun dst₁ hdst₁ => ?_
    refine ((h.add 16).memcpy hreach hd hdst₁).bind fun dst₂ hdst₂ => ?_
    split
    case isTrue hlt => exact ih (h.add 32) hdst₂ (by omega) (by omega) (by omega)
    case isFalse hge => exact .pure (hdst₂.mono (hmono (Nat.le_of_not_lt hge)))

omit hmono in
theorem Feeds.copyBytes (h : Feeds cap reach lim .output content d s) (hreach : 0 < reach)
    (hdst : Lz4Holds cap (content d) dst) (hlim : d + n ≤ lim) (hcap : d + n ≤ cap) :
    Yields (lz4CopyBytes dst d s n) (Lz4Holds cap (content (d + n))) := by
  induction n generalizing dst d s with
  | zero => exact .pure hdst
  | succ n ih =>
    have hcopy := h.memcpy hreach (by omega) hdst
    have hs : s + 1 ≤ d := by
      by_contra hlt
      rw [lz4Memcpy, if_neg hlt] at hcopy
      obtain ⟨_, hthrow, _⟩ := hcopy
      cases hthrow
    have hlen : s < dst.length := by
      rw [hdst.1]
      omega
    have hread : lz4Read dst s = .ok dst[s] := by
      rw [lz4Read, List.getElem?_eq_getElem hlen]
      rfl
    have hslice : slice dst s 1 = [dst[s]] := by
      rw [slice, List.drop_eq_getElem_cons hlen, List.take_succ_cons, List.take_zero]
    rw [lz4Memcpy, if_pos hs, hslice] at hcopy
    show Yields (lz4Read dst s >>= _) _
    rw [hread]
    refine hcopy.bind fun dst' hdst' => ?_
    rw [← Nat.add_assoc, Nat.add_right_comm]
    exact ih (h.add 1) hdst' (by omega) (by omega)

omit hmono in
theorem Feeds.congr {content' : Nat → List UInt8} (h : Feeds cap reach lim src content' d s)
    (heq : ∀ {p}, d ≤ p → content p = content' p) : Feeds cap reach lim src content d s := by
  intro i m dst hm hle hdst
  rw [heq (by omega)] at hdst ⊢
  exact h i m dst hm hle hdst

end Feeds

/-! ## Literals -/

section Literals

variable {block : List UInt8}

theorem prefix_literals {p q : Nat} (h : p ≤ q) :
    out ++ slice block s (p - out.length) <+: out ++ slice block s (q - out.length) :=
  (List.prefix_append_right_inj out).mpr (prefix_slice (Nat.sub_le_sub_right h _))

theorem holds_literals (h : Lz4Holds cap out dst) :
    Lz4Holds cap (out ++ slice block s (out.length - out.length)) dst := by
  rwa [Nat.sub_self, slice_zero, List.append_nil]

theorem holds_wildCopy8_literals (h : Lz4Holds cap out dst) (hs : s + n + 8 ≤ block.length)
    (hcap : out.length + 8 ≤ cap) (hncap : out.length + n + 7 ≤ cap) :
    Yields (lz4WildCopy8 (.block block) (out.length + n) (n + 1) dst out.length s)
      (Lz4Holds cap (out ++ slice block s n)) := by
  have hfeeds : Feeds cap 8 (out.length + max 8 (n + 7)) (.block block)
      (fun p => out ++ slice block s (p - out.length)) out.length s :=
    feeds_block rfl (by omega) (by omega)
  have hcopy := hfeeds.wildCopy8 (e := out.length + n) prefix_literals (Nat.le_refl 8)
    (holds_literals h) (by omega) (by omega) (Nat.zero_lt_succ n) (by omega)
  rwa [Nat.add_sub_cancel_left] at hcopy

theorem holds_wildCopy32_literals (h : Lz4Holds cap out dst) (hs : s + n + 32 ≤ block.length)
    (hcap : out.length + n + 32 ≤ cap) (hn : 0 < n) :
    Yields (lz4WildCopy32 (.block block) (out.length + n) n dst out.length s)
      (Lz4Holds cap (out ++ slice block s n)) := by
  have hfeeds : Feeds cap 16 (out.length + n + 32) (.block block)
      (fun p => out ++ slice block s (p - out.length)) out.length s :=
    feeds_block rfl hcap (by omega)
  have hcopy := hfeeds.wildCopy32 (e := out.length + n) prefix_literals (Nat.le_refl 16)
    (holds_literals h) (by omega) (by omega) hn (Nat.le_refl _)
  rwa [Nat.add_sub_cancel_left] at hcopy

/-- Sixteen bytes are copied for the at most fourteen literals there are. -/
theorem holds_memcpy_literals (h : Lz4Holds cap out dst) (hn : n ≤ 16) (hs : s + 16 ≤ block.length)
    (hcap : out.length + 16 ≤ cap) :
    Yields (lz4Memcpy (.block block) dst out.length s 16) (Lz4Holds cap (out ++ slice block s n)) :=
  (holds_lz4Memcpy_block h rfl hs hcap).mono fun _ hdst =>
    hdst.mono ((List.prefix_append_right_inj out).mpr (prefix_slice hn))

end Literals

end Copies

end IsrTransfer
