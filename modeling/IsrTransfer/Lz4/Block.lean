import IsrTransfer.Data.Buffer

/-!
# What a block stands for

The decoder of a block as plainly as it can be said, on lists: no memory, no copy of more bytes
than there are to copy, one loop.  A sequence is a token, a run of literals and a match; the last
one has no match.

The format wants the last match of a block to begin twelve bytes before the end of the output and
to end five bytes before it.  The decoder does not insist on that for a sequence whose lengths
fit the token and that stands well before the ends of the block and of the output (`short`).

The other half is the writing of sequences (`encode`, `encodeLast`).  A block is written from left
to right, and what it stands for is only defined for a whole one; so `Stands` says of the sequences
written so far that the plain decoder has made a certain output when it is through with them,
whatever comes after.  Sequences are added one by one (`Stands.append_encode`), with the
conditions that the format makes, and the last one closes the block (`Stands.append_last`).
-/

namespace IsrTransfer
namespace Block

open Buffer

/-- A length that does not fit the token: bytes of 255, and a smaller one.  At least `spare`
bytes have to be left. -/
def moreLength (spare : Nat) : List UInt8 → Option (Nat × List UInt8)
  | [] => none
  | b :: rest =>
    if rest.length < spare then none
    else if b = 255 then (moreLength spare rest).map fun more => (b.toNat + more.1, more.2)
    else some (b.toNat, rest)

/-- A length of which the token holds `n`. -/
def runLength (spare n : Nat) (rest : List UInt8) : Option (Nat × List UInt8) :=
  if n = 15 then (moreLength spare rest).map fun more => (n + more.1, more.2) else some (n, rest)

theorem runLength_of_ne {spare n : Nat} {rest : List UInt8} (h : n ≠ 15) :
    runLength spare n rest = some (n, rest) :=
  if_neg h

inductive Step where
  /-- Another one, before which the block is `rest` and the output `out`. -/
  | next (rest out : List UInt8)
  /-- Nothing. -/
  | done (out : List UInt8)
  deriving DecidableEq

/-- A match at `offset`, for `length` bytes and the four of a shortest match. -/
def matchCopy (cap : Nat) (lenient : Bool) (offset length : Nat) (rest out : List UInt8) :
    Option Step :=
  if out.length < offset then none
  else if lenient = false ∧ cap < out.length + (length + 4) + 5 then none
  else some (.next rest (copyAt out offset (length + 4)))

theorem matchCopy_of_le {cap offset length : Nat} {lenient : Bool} {rest out : List UInt8}
    (hoffset : offset ≤ out.length) (hcap : lenient = false → out.length + (length + 4) + 5 ≤ cap) :
    matchCopy cap lenient offset length rest out =
      some (.next rest (copyAt out offset (length + 4))) := by
  rw [matchCopy, if_neg (Nat.not_lt_of_le hoffset),
    if_neg fun hlt => absurd hlt.2 (Nat.not_lt_of_le (hcap hlt.1))]

theorem matchCopy_of_lt {cap offset length : Nat} {rest out : List UInt8}
    (hcap : cap < out.length + (length + 4) + 5) :
    matchCopy cap false offset length rest out = none := by
  rw [matchCopy]
  split
  · rfl
  · exact if_pos ⟨rfl, hcap⟩

theorem matchCopy_of_offset {cap offset length : Nat} {lenient : Bool} {rest out : List UInt8}
    (hoffset : out.length < offset) : matchCopy cap lenient offset length rest out = none :=
  if_pos hoffset

theorem matchCopy_lenient {cap offset length : Nat} {lenient : Bool} {rest out : List UInt8}
    (hcap : lenient = true → offset ≤ out.length → out.length + (length + 4) + 5 ≤ cap) :
    matchCopy cap lenient offset length rest out = matchCopy cap false offset length rest out := by
  cases lenient with
  | false => rfl
  | true =>
    rcases Nat.lt_or_ge out.length offset with hlt | hge
    · rw [matchCopy_of_offset hlt, matchCopy_of_offset hlt]
    · rw [matchCopy_of_le hge fun _ => hcap rfl hge, matchCopy_of_le hge fun _ => hcap rfl hge]

/-- The match of a sequence, where `n` is what the token says of its length. -/
def matchStep (cap : Nat) (short : Bool) (n : Nat) : (rest out : List UInt8) → Option Step
  | low :: high :: rest, out =>
    (runLength 4 n rest).bind fun run =>
      matchCopy cap (short && n != 15 && 8 ≤ low.toNat + 256 * high.toNat)
        (low.toNat + 256 * high.toNat) run.1 run.2 out
  | _, _ => none

/-- The literals of a sequence, `length` of them, and what follows. -/
def literalStep (cap : Nat) (short : Bool) (n length : Nat) (rest out : List UInt8) :
    Option Step :=
  if short = false ∧ (cap < out.length + length + 12 ∨ rest.length < length + 8) then
    if rest.length = length ∧ out.length + length ≤ cap then some (.done (out ++ rest)) else none
  else matchStep cap short n (rest.drop length) (out ++ rest.take length)

theorem literalStep_of_le {cap n length : Nat} {short : Bool} {rest out : List UInt8}
    (h : short = false → out.length + length + 12 ≤ cap ∧ length + 8 ≤ rest.length) :
    literalStep cap short n length rest out =
      matchStep cap short n (rest.drop length) (out ++ rest.take length) := by
  refine if_neg fun hlast => ?_
  have hle := h hlast.1
  omega

/-- The last sequence of a block. -/
theorem literalStep_last {cap n : Nat} {rest out : List UInt8}
    (h : out.length + rest.length ≤ cap) :
    literalStep cap false n rest.length rest out = some (.done (out ++ rest)) := by
  rw [literalStep, if_pos ⟨rfl, Or.inr (Nat.lt_add_of_pos_right (by decide))⟩, if_pos ⟨rfl, h⟩]

theorem literalStep_corrupt {cap n length : Nat} {rest out : List UInt8}
    (hlast : cap < out.length + length + 12 ∨ rest.length < length + 8)
    (h : rest.length = length → cap < out.length + length) :
    literalStep cap false n length rest out = none := by
  rw [literalStep, if_pos ⟨rfl, hlast⟩]
  exact if_neg fun hok => absurd hok.2 (Nat.not_le_of_lt (h hok.1))

def sequenceStep (cap : Nat) : (rest out : List UInt8) → Option Step
  | [], _ => none
  | token :: rest, out =>
    (runLength 15 (token.toNat / 16) rest).bind fun run =>
      literalStep cap (token.toNat / 16 != 15 && 17 ≤ rest.length && out.length + 32 ≤ cap)
        (token.toNat % 16) run.1 run.2 out

theorem moreLength_of_length_le {spare : Nat} {rest : List UInt8} (h : rest.length ≤ spare) :
    moreLength spare rest = none := by
  cases rest with
  | nil => rfl
  | cons b rest => exact if_pos h

theorem length_of_moreLength {spare length : Nat} {rest rest' : List UInt8}
    (h : moreLength spare rest = some (length, rest')) :
    spare ≤ rest'.length ∧ rest'.length < rest.length := by
  induction rest generalizing length with
  | nil => cases h
  | cons b rest ih =>
    rw [moreLength] at h
    split at h
    · cases h
    · split at h
      · obtain ⟨more, hmore, heq⟩ := Option.map_eq_some_iff.mp h
        have hmore' : moreLength spare rest = some (more.1, rest') := by
          rw [hmore, ← (Prod.mk.inj heq).2]
        have hrest := ih hmore'
        exact ⟨hrest.1, Nat.lt_succ_of_lt hrest.2⟩
      · obtain ⟨rfl, rfl⟩ := Prod.mk.inj (Option.some.inj h)
        exact ⟨by omega, Nat.lt_succ_self _⟩

theorem length_of_runLength {spare n length : Nat} {rest rest' : List UInt8}
    (h : runLength spare n rest = some (length, rest')) : rest'.length ≤ rest.length := by
  rw [runLength] at h
  split at h
  · obtain ⟨more, hmore, heq⟩ := Option.map_eq_some_iff.mp h
    have hrest : moreLength spare rest = some (more.1, rest') := by
      rw [hmore, ← (Prod.mk.inj heq).2]
    exact (length_of_moreLength hrest).2.le
  · rw [(Prod.mk.inj (Option.some.inj h)).2]

theorem length_of_matchStep {cap n : Nat} {short : Bool} {rest out rest' out' : List UInt8}
    (h : matchStep cap short n rest out = some (.next rest' out')) :
    rest'.length + 2 ≤ rest.length := by
  obtain _ | ⟨low, _ | ⟨high, rest⟩⟩ := rest
  · cases h
  · cases h
  · obtain ⟨run, hrun, hcopy⟩ := Option.bind_eq_some_iff.mp h
    have hle : run.2.length ≤ rest.length := length_of_runLength hrun
    rw [matchCopy] at hcopy
    split at hcopy
    · cases hcopy
    · split at hcopy
      · cases hcopy
      · cases hcopy
        exact Nat.add_le_add_right hle 2

/-- A sequence takes bytes of the block. -/
theorem length_of_sequence {cap : Nat} {rest out rest' out' : List UInt8}
    (h : sequenceStep cap rest out = some (.next rest' out')) : rest'.length < rest.length := by
  cases rest with
  | nil => cases h
  | cons token rest =>
    obtain ⟨run, hrun, hlit⟩ := Option.bind_eq_some_iff.mp h
    have hle : run.2.length ≤ rest.length := length_of_runLength hrun
    rw [literalStep] at hlit
    split at hlit
    · split at hlit <;> cases hlit
    · have hmatch := length_of_matchStep hlit
      rw [List.length_drop] at hmatch
      rw [List.length_cons]
      omega

/-- All the sequences of a block, `out` having been decoded before. -/
def decode (cap : Nat) (rest out : List UInt8) : Option (List UInt8) :=
  match _h : sequenceStep cap rest out with
  | none => none
  | some (.done out') => some out'
  | some (.next rest' out') => decode cap rest' out'
termination_by rest.length
decreasing_by exact length_of_sequence _h

/-- The content of a block, into room for `cap` bytes. -/
def content (cap : Nat) (block : List UInt8) : Option (List UInt8) :=
  if cap = 0 then if block = [0] then some [] else none else decode cap block []

/-- What a block still stands for after a sequence. -/
def Step.finish (cap : Nat) : Step → Option (List UInt8)
  | .next rest out => decode cap rest out
  | .done out => some out

theorem decode_eq_bind {cap : Nat} {rest out : List UInt8} :
    decode cap rest out = (sequenceStep cap rest out).bind (Step.finish cap) := by
  rw [decode]
  split <;> rename_i heq <;> rw [heq] <;> rfl

/-! ## Encoding

What a compressor writes, sequence by sequence, without saying how it finds its matches.
`Stands` is the invariant that a compressor keeps: the block so far stands for the output so
far, whatever is appended to the block. -/

/-- What follows the token for a length of `n`. -/
def runBytes (n : Nat) : List UInt8 :=
  if n < 15 then [] else List.replicate ((n - 15) / 255) 255 ++ [UInt8.ofNat ((n - 15) % 255)]

/-- The token of a run of `n` literals and a match of `m` bytes more than the shortest. -/
def token (n m : Nat) : UInt8 := UInt8.ofNat (16 * min n 15 + min m 15)

/-- A sequence: literals, and a match of `m` bytes more than the shortest. -/
def encode (literals : List UInt8) (offset m : Nat) : List UInt8 :=
  token literals.length m :: (runBytes literals.length ++ (literals ++
    (UInt8.ofNat offset :: UInt8.ofNat (offset / 256) :: runBytes m)))

def encodeLast (literals : List UInt8) : List UInt8 :=
  token literals.length 0 :: (runBytes literals.length ++ literals)

theorem length_runBytes_le {n : Nat} : 255 * (runBytes n).length ≤ n + 240 := by
  rw [runBytes]
  split
  · exact Nat.zero_le _
  · rw [List.length_append, List.length_replicate, List.length_singleton]
    omega

theorem runBytes_of_lt {n : Nat} (h : n < 15) : runBytes n = [] := if_pos h

theorem length_runBytes_of_lt {n : Nat} (h : n < 15) : (runBytes n).length = 0 :=
  congrArg List.length (runBytes_of_lt h)

theorem toNat_token {n m : Nat} : (token n m).toNat = 16 * min n 15 + min m 15 := by
  rw [token, UInt8.toNat_ofNat_of_lt']
  show _ < 256
  omega

theorem moreLength_replicate {spare k n : Nat} {tail : List UInt8} (hn : n < 255)
    (h : spare ≤ tail.length) :
    moreLength spare (List.replicate k 255 ++ UInt8.ofNat n :: tail) =
      some (255 * k + n, tail) := by
  have hn' : (UInt8.ofNat n).toNat = n := by
    rw [UInt8.toNat_ofNat_of_lt']
    exact hn.trans (by decide)
  have hne : UInt8.ofNat n ≠ 255 := by
    intro heq
    rw [heq] at hn'
    exact absurd hn' (Nat.ne_of_gt hn)
  induction k with
  | zero =>
    rw [List.replicate_zero, List.nil_append, moreLength, if_neg (Nat.not_lt_of_le h), if_neg hne,
      hn', Nat.mul_zero, Nat.zero_add]
  | succ k ih =>
    rw [List.replicate_succ, List.cons_append, moreLength, if_neg, if_pos rfl, ih, Option.map_some]
    · congr 2
      show 255 + _ = _
      omega
    · rw [List.length_append, List.length_cons]
      omega

/-- The length that was written is read. -/
theorem runLength_runBytes {spare n : Nat} {tail : List UInt8} (h : 15 ≤ n → spare ≤ tail.length) :
    runLength spare (min n 15) (runBytes n ++ tail) = some (n, tail) := by
  rcases Nat.lt_or_ge n 15 with hlt | hge
  · rw [runBytes_of_lt hlt, Nat.min_eq_left hlt.le, runLength_of_ne hlt.ne, List.nil_append]
  · rw [runLength, Nat.min_eq_right hge, if_pos rfl, runBytes, if_neg (Nat.not_lt_of_le hge),
      List.append_assoc, List.singleton_append,
      moreLength_replicate (Nat.mod_lt _ (by decide)) (h hge),
      Option.map_some]
    congr 2
    show 15 + (255 * ((n - 15) / 255) + (n - 15) % 255) = n
    rw [Nat.div_add_mod]
    omega

/-- A sequence stands for its literals and its match. -/
theorem sequence_encode {cap offset m : Nat} {literals out tail : List UInt8}
    (htail : 6 ≤ tail.length) (hoffset : offset ≤ (out ++ literals).length)
    (h16 : offset < 65536) (hlast : (out ++ literals).length + 12 ≤ cap)
    (hcap : (out ++ literals).length + (m + 4) + 5 ≤ cap) :
    sequenceStep cap (encode literals offset m ++ tail) out =
      some (.next tail (copyAt (out ++ literals) offset (m + 4))) := by
  have hlow : (UInt8.ofNat offset).toNat + 256 * (UInt8.ofNat (offset / 256)).toNat = offset := by
    rw [UInt8.toNat_ofNat', UInt8.toNat_ofNat']
    omega
  have hdiv : (token literals.length m).toNat / 16 = min literals.length 15 := by
    rw [toNat_token]
    omega
  have hmod : (token literals.length m).toNat % 16 = min m 15 := by
    rw [toNat_token]
    omega
  have hrest : 6 ≤ (runBytes m ++ tail).length := by
    rw [List.length_append]
    omega
  rw [encode, List.cons_append, List.append_assoc, List.append_assoc, List.cons_append,
    List.cons_append, sequenceStep, hdiv, hmod, runLength_runBytes, Option.bind_some]
  · rw [List.length_append] at hlast
    rw [literalStep_of_le fun _ => ⟨hlast, ?_⟩, List.drop_left, List.take_left, matchStep,
      runLength_runBytes (fun _ => by omega), Option.bind_some, hlow,
      matchCopy_of_le hoffset fun _ => hcap]
    rw [List.length_append, List.length_cons, List.length_cons]
    omega
  · intro hlong
    rw [List.length_append]
    omega

/-- The last sequence ends the block. -/
theorem sequence_encodeLast {cap : Nat} {literals out : List UInt8}
    (hcap : out.length + literals.length ≤ cap) :
    sequenceStep cap (encodeLast literals) out = some (.done (out ++ literals)) := by
  have hdiv : (token literals.length 0).toNat / 16 = min literals.length 15 := by
    rw [toNat_token]
    omega
  have hshort : (min literals.length 15 != 15 &&
      17 ≤ (runBytes literals.length ++ literals).length && out.length + 32 ≤ cap) = false := by
    rcases Nat.lt_or_ge literals.length 15 with hlt | hge
    · rw [runBytes_of_lt hlt, List.nil_append]
      simp
      omega
    · simp [Nat.min_eq_right hge]
  rw [encodeLast, sequenceStep, hdiv, runLength_runBytes fun hlong => hlong, Option.bind_some,
    hshort]
  exact literalStep_last hcap

/-- The sequences of `block` stand for `out`, whatever comes after them. -/
def Stands (cap : Nat) (block out : List UInt8) : Prop :=
  ∀ tail : List UInt8, 6 ≤ tail.length → decode cap (block ++ tail) [] = decode cap tail out

theorem stands_nil {cap : Nat} : Stands cap [] [] := fun _ _ => rfl

theorem Stands.append_encode {cap offset m : Nat} {block out literals : List UInt8}
    (h : Stands cap block out) (hoffset : offset ≤ (out ++ literals).length) (h16 : offset < 65536)
    (hlast : (out ++ literals).length + 12 ≤ cap)
    (hcap : (out ++ literals).length + (m + 4) + 5 ≤ cap) :
    Stands cap (block ++ encode literals offset m) (copyAt (out ++ literals) offset (m + 4)) := by
  intro tail htail
  have htail' : 6 ≤ (encode literals offset m ++ tail).length := by
    rw [List.length_append]
    omega
  rw [List.append_assoc, h _ htail', decode_eq_bind, sequence_encode htail hoffset h16 hlast hcap]
  rfl

theorem Stands.append_last {cap : Nat} {block out literals : List UInt8} (h : Stands cap block out)
    (hliterals : 5 ≤ literals.length) (hcap : out.length + literals.length ≤ cap) :
    decode cap (block ++ encodeLast literals) [] = some (out ++ literals) := by
  have htail : 6 ≤ (encodeLast literals).length := by
    rw [encodeLast, List.length_cons, List.length_append]
    omega
  rw [h _ htail, decode_eq_bind, sequence_encodeLast hcap]
  rfl

/-- A block of nothing but literals. -/
theorem decode_encodeLast {cap : Nat} {literals : List UInt8} (hcap : literals.length ≤ cap) :
    decode cap (encodeLast literals) [] = some literals := by
  rw [decode_eq_bind, sequence_encodeLast (by rwa [List.length_nil, Nat.zero_add])]
  rfl

end Block
end IsrTransfer
