import IsrTransfer.Data.Outcome
import IsrTransfer.Lz4.Compress

/-!
# What the compressor finds

A match is a place that is repeated later on, at a distance that fits two bytes.  The hash table is
only trusted to point backwards (`Lz4Table`); that what it points to is repeated is compared.

Moving a match back and counting its length take it as far as it goes.  Therefore the place where
the compressor goes on is behind every index in the table, though the match may have been moved
back behind some of them.

Nothing has to be known about the hash, but that it is an index of the table.  An index with
sixteen bits is what it was when it was stored, since a table of this kind is only used for inputs
that are short enough; one with 32 bits always is.  So an index from the table is one of a place
before, and with a comparison of four bytes and a look at the distance it is the place of a match
(`yields_lz4FindMatch`).

The comparisons read eight, four, two and one byte at a time, and each stops where the input ends
(`Lz4Counted`).  The number of bytes that two words have in common is found by arithmetic in the
source; here it is counted, and that the count is right is a lemma about lists
(`lz4NbCommonBytes_spec`).
-/

namespace IsrTransfer

open Buffer Outcome

/-- The `n` bytes at `m` stand at `ip` again. -/
def Repeats (src : List UInt8) (ip m n : Nat) : Prop := ∀ k < n, src[ip + k]? = src[m + k]?

/-- A hash table no index in which is beyond `bound`. -/
structure Lz4Table (tableType : Lz4TableType) (bound : Nat) (table : List Nat) : Prop where
  length : table.length = 2 ^ lz4HashLog tableType
  le : ∀ idx ∈ table, idx ≤ bound

section MatchFinder

variable {src : List UInt8} {tableType : Lz4TableType} {table : List Nat} {bound ip m n : Nat}

theorem Repeats.mono {n' : Nat} (h : Repeats src ip m n) (hn : n' ≤ n) : Repeats src ip m n' :=
  fun k hk => h k (hk.trans_le hn)

theorem Repeats.append {n' : Nat} (h : Repeats src ip m n)
    (h' : Repeats src (ip + n) (m + n) n') : Repeats src ip m (n + n') := by
  intro k hk
  rcases Nat.lt_or_ge k n with hlt | hge
  · exact h k hlt
  · obtain ⟨j, rfl⟩ := Nat.exists_eq_add_of_le hge
    rw [← Nat.add_assoc, ← Nat.add_assoc]
    exact h' j (by omega)

theorem lz4Load_ok (h : ip + n ≤ src.length) : lz4Load src ip n = .ok (slice src ip n) :=
  if_pos h

theorem lz4Read_ok (h : ip < src.length) : lz4Read src ip = .ok src[ip] := by
  rw [lz4Read, List.getElem?_eq_getElem h]
  rfl

theorem repeats_of_slice_eq (h : slice src m n = slice src ip n) : Repeats src ip m n := by
  intro k hk
  have hget := congrArg (fun b => b[k]?) h
  simp only [getElem?_slice, if_pos hk] at hget
  exact hget.symm

theorem slice_eq_of_repeats (h : Repeats src ip m n) : slice src m n = slice src ip n := by
  ext1 k
  rw [getElem?_slice, getElem?_slice]
  split
  case isTrue hk => exact (h k hk).symm
  case isFalse hk => rfl

/-! ## The hash table -/

theorem lz4Hash4_lt (sequence : Nat) : lz4Hash4 sequence tableType < 2 ^ lz4HashLog tableType := by
  rw [lz4Hash4]
  refine Nat.div_lt_of_lt_mul ((Nat.mod_lt _ (by decide)).trans_eq ?_)
  cases tableType <;> rfl

theorem lz4Hash5_lt (sequence : Nat) : lz4Hash5 sequence tableType < 2 ^ lz4HashLog tableType := by
  rw [lz4Hash5]
  refine Nat.div_lt_of_lt_mul ((Nat.mod_lt _ (by decide)).trans_eq ?_)
  cases tableType <;> rfl

theorem yields_lz4HashPosition (h : ip + 8 ≤ src.length) :
    Yields (lz4HashPosition src ip tableType) (· < 2 ^ lz4HashLog tableType) := by
  rw [lz4HashPosition]
  split
  · rw [lz4Load_ok h]
    exact .pure (lz4Hash5_lt _)
  · rw [lz4Load_ok (by omega)]
    exact .pure (lz4Hash4_lt _)

theorem Lz4Table.get {h : Nat} (ht : Lz4Table tableType bound table)
    (hh : h < 2 ^ lz4HashLog tableType) : Yields (lz4GetIndexOnHash h table) (· ≤ bound) := by
  rw [← ht.length] at hh
  rw [lz4GetIndexOnHash, List.getElem?_eq_getElem hh]
  exact .pure (ht.le _ (List.getElem_mem hh))

theorem Lz4Table.put {h idx : Nat} (ht : Lz4Table tableType bound table)
    (hh : h < 2 ^ lz4HashLog tableType) (hidx : bound ≤ idx) :
    Yields (lz4PutIndexOnHash idx h table tableType) (Lz4Table tableType idx) := by
  rw [lz4PutIndexOnHash, if_pos (ht.length ▸ hh)]
  refine .pure ⟨(List.length_set).trans ht.length, fun i hi => ?_⟩
  rcases List.mem_or_eq_of_mem_set hi with hmem | rfl
  · exact (ht.le i hmem).trans hidx
  · exact Nat.mod_le _ _

theorem lz4Table_replicate :
    Lz4Table tableType 0 (List.replicate (2 ^ lz4HashLog tableType) 0) where
  length := List.length_replicate
  le _ hidx := (List.eq_of_mem_replicate hidx).le

/-! ## Finding a match -/

/-- What is found from `ip` on: a place, what is repeated there, and the table. -/
structure Lz4Found (src : List UInt8) (tableType : Lz4TableType) (ip : Nat)
    (found : Nat × Nat × List Nat) : Prop where
  le : ip ≤ found.1
  end_le : found.1 + lz4MfLimit ≤ src.length
  lt : found.2.1 < found.1
  near : found.1 ≤ found.2.1 + lz4DistanceMax
  repeats : Repeats src found.1 found.2.1 4
  table : Lz4Table tableType found.1 found.2.2

theorem yields_lz4FindMatch {fuel step searchMatchNb h : Nat}
    (h64 : tableType = .byU16 → src.length < lz464KLimit) (ht : Lz4Table tableType bound table)
    (hbound : bound < ip) (hh : h < 2 ^ lz4HashLog tableType) (hstep : 1 ≤ step)
    (hnb : 64 ≤ searchMatchNb) (hip : ip + 11 ≤ src.length) (hfuel : src.length ≤ ip + fuel) :
    Yields (lz4FindMatch src tableType fuel table ip step searchMatchNb h)
      (fun o => ∀ found, o = some found → Lz4Found src tableType ip found) := by
  induction fuel generalizing table bound ip step searchMatchNb h with
  | zero => omega
  | succ fuel ih =>
    rw [lz4FindMatch]
    refine (ht.get hh).bind fun matchIndex hindex => ?_
    split
    case isTrue hend =>
      refine .pure fun found hfound => ?_
      cases hfound
    case isFalse hend =>
      have hforward : ip + step + 11 ≤ src.length := by
        rw [lz4MfLimit] at hend
        omega
      refine (yields_lz4HashPosition (by omega)).bind fun forwardH hforwardH => ?_
      refine (ht.put hh hbound.le).bind fun table' ht' => ?_
      have hagain : Yields (lz4FindMatch src tableType fuel table' (ip + step) (searchMatchNb / 64)
          (searchMatchNb + 1) forwardH)
          (fun o => ∀ found, o = some found → Lz4Found src tableType ip found) :=
        (ih ht' (by omega) hforwardH (by omega) (by omega) hforward (by omega)).mono
          fun o ho found hfound =>
            { ho found hfound with le := (Nat.le_add_right ip step).trans (ho found hfound).le }
      split
      case isTrue hfar => exact hagain
      case isFalse hnear =>
        rw [lz4Load_ok (by omega), lz4Load_ok (by omega)]
        show Yields (if _ then _ else _) _
        split
        case isTrue heq =>
          refine .pure fun found hfound => ?_
          cases hfound
          refine ⟨Nat.le_refl _, by rw [lz4MfLimit]; omega, hindex.trans_lt hbound, ?_,
            repeats_of_slice_eq heq, ht'⟩
          by_cases htype : tableType = .byU16
          · have hlen := h64 htype
            rw [lz464KLimit, lz4MfLimit] at hlen
            rw [lz4DistanceMax]
            omega
          · exact Nat.le_of_not_lt fun hlt => hnear ⟨htype, hlt⟩
        case isFalse hne => exact hagain

/-! ## Catching up -/

/-- A match that has been moved back: it begins between `anchor` and `ip`, and repeats what is as
far behind as before, to the end of what it was known to repeat. -/
structure Lz4CaughtUp (src : List UInt8) (anchor ip m : Nat) (r : Nat × Nat) : Prop where
  anchor_le : anchor ≤ r.1
  le : r.1 ≤ ip
  lt : r.2 < r.1
  distance : r.1 + m = ip + r.2
  repeats : Repeats src r.1 r.2 (ip - r.1 + 4)

theorem Repeats.back {b : UInt8} (h : Repeats src (ip + 1) (m + 1) n) (hip : src[ip]? = some b)
    (hm : src[m]? = some b) : Repeats src ip m (n + 1) := by
  rw [Nat.add_comm]
  refine Repeats.append (n := 1) (fun k hk => ?_) h
  rw [Nat.lt_one_iff.mp hk]
  exact hip.trans hm.symm

theorem yields_lz4CatchUpLoop {anchor : Nat} (hanchor : anchor ≤ ip) (hm : m < ip)
    (hip : ip ≤ src.length) (hrep : Repeats src ip m n) :
    Yields (lz4CatchUpLoop src anchor ip m) (fun r => anchor ≤ r.1 ∧ r.1 ≤ ip ∧ r.2 < r.1 ∧
      r.1 + m = ip + r.2 ∧ Repeats src r.1 r.2 (ip - r.1 + n)) := by
  induction m generalizing ip n with
  | zero =>
    refine .pure ⟨hanchor, Nat.le_refl _, hm, rfl, ?_⟩
    rwa [Nat.sub_self, Nat.zero_add]
  | succ m ih =>
    have hstay : Yields (ε := Lz4Stop) (pure (ip, m + 1)) (fun r => anchor ≤ r.1 ∧ r.1 ≤ ip ∧
        r.2 < r.1 ∧ r.1 + (m + 1) = ip + r.2 ∧ Repeats src r.1 r.2 (ip - r.1 + n)) := by
      refine .pure ⟨hanchor, Nat.le_refl _, hm, rfl, ?_⟩
      rwa [Nat.sub_self, Nat.zero_add]
    rw [lz4CatchUpLoop]
    split
    case isFalse hge => exact hstay
    case isTrue hlt =>
      obtain ⟨ip, rfl⟩ : ∃ i, ip = i + 1 := ⟨ip - 1, by omega⟩
      rw [Nat.add_sub_cancel, lz4Read_ok (by omega), lz4Read_ok (by omega)]
      show Yields (if _ then _ else _) _
      split
      case isFalse hne => exact hstay
      case isTrue heq =>
        have hrep' := hrep.back (List.getElem?_eq_getElem (by omega))
          ((List.getElem?_eq_getElem (by omega)).trans (congrArg some heq.symm))
        refine (ih (by omega) (by omega) (by omega) hrep').mono fun r hr => ?_
        obtain ⟨hanchor', hle, hlt', hdistance, hrep''⟩ := hr
        refine ⟨hanchor', by omega, hlt', by omega, hrep''.mono (by omega)⟩

theorem yields_lz4CatchUp {anchor : Nat} (hanchor : anchor < ip) (hm : m < ip)
    (hip : ip ≤ src.length) (hrep : Repeats src ip m 4) :
    Yields (lz4CatchUp src anchor ip m) (Lz4CaughtUp src anchor ip m) := by
  have hstay : Yields (ε := Lz4Stop) (pure (ip, m)) (Lz4CaughtUp src anchor ip m) := by
    refine .pure ⟨hanchor.le, Nat.le_refl _, hm, rfl, ?_⟩
    rwa [Nat.sub_self, Nat.zero_add]
  rw [lz4CatchUp]
  split
  case isFalse hzero => exact hstay
  case isTrue hpos =>
    obtain ⟨m, rfl⟩ : ∃ i, m = i + 1 := ⟨m - 1, by omega⟩
    obtain ⟨ip, rfl⟩ : ∃ i, ip = i + 1 := ⟨ip - 1, by omega⟩
    rw [Nat.add_sub_cancel, Nat.add_sub_cancel, lz4Read_ok (by omega), lz4Read_ok (by omega)]
    show Yields (if _ then _ else _) _
    split
    case isFalse hne => exact hstay
    case isTrue heq =>
      have hrep' := hrep.back (List.getElem?_eq_getElem (by omega))
        ((List.getElem?_eq_getElem (by omega)).trans (congrArg some heq.symm))
      refine (yields_lz4CatchUpLoop (Nat.le_of_lt_succ hanchor) (by omega) (by omega) hrep').mono
        fun r hr => ?_
      obtain ⟨hanchor', hle, hlt', hdistance, hrep''⟩ := hr
      exact ⟨hanchor', by omega, hlt', by omega, hrep''.mono (by omega)⟩

/-! ## Counting -/

/-- `c` bytes are repeated, and up to `limit` not another `n`. -/
structure Lz4Counted (src : List UInt8) (limit n pIn pMatch c : Nat) : Prop where
  le : pIn + c ≤ limit
  repeats : Repeats src pIn pMatch c
  most : pIn + c + n ≤ limit → ¬Repeats src (pIn + c) (pMatch + c) n

theorem lz4NbCommonBytes_spec {a b : List UInt8} (hne : a ≠ b) (hlen : a.length = b.length) :
    lz4NbCommonBytes a b < a.length ∧ (∀ k < lz4NbCommonBytes a b, a[k]? = b[k]?) ∧
      a[lz4NbCommonBytes a b]? ≠ b[lz4NbCommonBytes a b]? := by
  induction a generalizing b with
  | nil =>
    cases b with
    | nil => exact absurd rfl hne
    | cons y b => cases hlen
  | cons x a ih =>
    cases b with
    | nil => cases hlen
    | cons y b =>
      rw [lz4NbCommonBytes]
      split
      case isTrue heq =>
        subst heq
        obtain ⟨hlt, hall, hmost⟩ := ih (fun heq => hne (congrArg _ heq)) (Nat.succ.inj hlen)
        refine ⟨Nat.succ_lt_succ hlt, fun k hk => ?_, hmost⟩
        cases k with
        | zero => rfl
        | succ k => exact hall k (Nat.lt_of_succ_lt_succ hk)
      case isFalse hxy =>
        refine ⟨Nat.zero_lt_succ _, fun k hk => absurd hk (Nat.not_lt_zero _), fun heq => hxy ?_⟩
        exact Option.some.inj heq

/-- A comparison of `n` bytes, where not twice as many are repeated. -/
theorem yields_lz4CountStep {limit pIn pMatch c : Nat} (hlt : pMatch < pIn)
    (hlimit : limit ≤ src.length) (hc : Lz4Counted src limit (n + n) pIn pMatch c) :
    Yields (lz4CountStep src limit n (pIn + c) (pMatch + c)) (fun r =>
      ∃ c', r = (pIn + c', pMatch + c') ∧ Lz4Counted src limit n pIn pMatch c') := by
  rw [lz4CountStep]
  split
  case isFalse hend => exact .pure ⟨c, rfl, hc.le, hc.repeats, fun hle => absurd hle hend⟩
  case isTrue hle =>
    rw [lz4Load_ok (by omega), lz4Load_ok (by omega)]
    show Yields (if _ then _ else _) _
    split
    case isTrue heq =>
      have hrep := repeats_of_slice_eq heq
      rw [Nat.add_assoc, Nat.add_assoc]
      refine .pure ⟨c + n, rfl, by omega, hc.repeats.append hrep, fun hle' hrep' => ?_⟩
      rw [← Nat.add_assoc, ← Nat.add_assoc] at hrep'
      exact hc.most (by omega) (hrep.append hrep')
    case isFalse hne =>
      exact .pure ⟨c, rfl, hc.le, hc.repeats, fun _ hrep => hne (slice_eq_of_repeats hrep)⟩

theorem yields_lz4CountLoop {limit fuel pIn pMatch c : Nat} (hlt : pMatch < pIn)
    (hlimit : limit ≤ src.length) (hle : pIn + c ≤ limit) (hrep : Repeats src pIn pMatch c)
    (hfuel : limit < pIn + c + fuel) :
    Yields (lz4CountLoop src limit fuel (pIn + c) (pMatch + c)) (fun e =>
      ∃ c', e = pIn + c' ∧ Lz4Counted src limit 1 pIn pMatch c') := by
  induction fuel generalizing c with
  | zero => omega
  | succ fuel ih =>
    rw [lz4CountLoop]
    split
    case isTrue hword =>
      rw [lz4Load_ok (by omega), lz4Load_ok (by omega)]
      show Yields (if _ then _ else _) _
      split
      case isTrue heq =>
        have hrep' := hrep.append (repeats_of_slice_eq heq)
        exact ih (by omega) hrep' (by omega)
      case isFalse hne =>
        have hlen : (slice src (pMatch + c) 8).length = 8 := length_slice (by omega)
        have hlen' : (slice src (pIn + c) 8).length = 8 := length_slice (by omega)
        obtain ⟨hcommon, hall, hdiffer⟩ := lz4NbCommonBytes_spec hne (hlen.trans hlen'.symm)
        rw [hlen] at hcommon
        refine .pure ⟨c + _, Nat.add_assoc _ _ _, by omega, hrep.append fun k hk => ?_, ?_⟩
        · have hbyte := hall k hk
          rw [getElem?_slice, getElem?_slice, if_pos (by omega), if_pos (by omega)] at hbyte
          exact hbyte.symm
        · intro _ hone
          rw [getElem?_slice, getElem?_slice, if_pos hcommon, if_pos hcommon] at hdiffer
          have hbyte := hone 0 Nat.one_pos
          rw [Nat.add_zero, Nat.add_zero, ← Nat.add_assoc, ← Nat.add_assoc] at hbyte
          exact hdiffer hbyte.symm
    case isFalse hend =>
      have h8 : Lz4Counted src limit (4 + 4) pIn pMatch c :=
        ⟨hle, hrep, fun hle' => absurd hle' (by omega)⟩
      refine (yields_lz4CountStep hlt hlimit h8).bind fun r hr => ?_
      obtain ⟨c₄, rfl, h4⟩ := hr
      refine (yields_lz4CountStep (n := 2) hlt hlimit h4).bind fun r hr => ?_
      obtain ⟨c₂, rfl, h2⟩ := hr
      refine (yields_lz4CountStep (n := 1) hlt hlimit h2).bind fun r hr => ?_
      obtain ⟨c₁, rfl, h1⟩ := hr
      exact .pure ⟨c₁, rfl, h1⟩

/-- The bytes that are repeated are counted. -/
theorem yields_lz4Count {limit pIn pMatch : Nat} (hlt : pMatch < pIn) (hlimit : limit ≤ src.length)
    (hle : pIn ≤ limit) :
    Yields (lz4Count src pIn pMatch limit) (Lz4Counted src limit 1 pIn pMatch) := by
  have hnone : Repeats src pIn pMatch 0 := fun k hk => absurd hk (Nat.not_lt_zero k)
  refine (yields_lz4CountLoop hlt hlimit (c := 0) hle hnone (by omega)).bind fun e he => ?_
  obtain ⟨c, rfl, hc⟩ := he
  rw [Nat.add_sub_cancel_left]
  exact .pure hc

end MatchFinder

end IsrTransfer
