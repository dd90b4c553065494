import IsrTransfer.Paths

/-!
# The grammar of `isr_validate_path`

`isr_validate_path` slides a window of three bytes over the path, with a look at the
byte before it.  What it decides is a matter of components: cut at every `/` and at
every `\`, a path it accepts is not empty, does not begin with a separator and has
no component `..` (`ValidPath`).

## 1.  The scan and the components

`isrValidatePathLoop_eq` is the induction.  At every position the window sees whether
the component that begins there is `..`, and the components of a string are those of
its tail with the first one extended or an empty one put in front.

## 2.  The scan and the buffer

The program does not have the path as a list.  It reads bytes of a buffer that holds
the path, a terminator and whatever follows it.  `isrValidatePathReads` makes each
of these reads, and has no result if one of them is outside of the buffer.  It always
has one, it is that of `isrValidatePath`, and what follows the terminator does not
matter (`isrValidatePathReads_eq`).
-/

namespace IsrTransfer

open Posix

/-- The components of a path, cut at both separators. -/
def separated (path : List UInt8) : List Name := path.splitOnP isSeparator

/-- The paths that `isr_validate_path` is meant to accept. -/
def ValidPath (path : List UInt8) : Prop :=
  path ≠ [] ∧ path.head?.all (fun c => ¬ isSeparator c) ∧ dotdot ∉ separated path

instance : DecidablePred ValidPath := fun path =>
  inferInstanceAs (Decidable (path ≠ [] ∧ path.head?.all (fun c => ¬ isSeparator c) ∧
    dotdot ∉ separated path))

/-! ## 1.  The scan and the components

The scan looks at the bytes through a window of four: the one before, the two periods and the
one after.  What it finds through it is a component `..` of the rest, and by induction on the
rest every such component is found. -/

theorem separated_cons (c : UInt8) (p : List UInt8) :
    separated (c :: p) =
      if isSeparator c then [] :: separated p else (separated p).modifyHead (List.cons c) :=
  List.splitOnP_cons_eq_if_modifyHead c p

theorem exists_separated (p : List UInt8) : ∃ hd tl, separated p = hd :: tl :=
  List.exists_cons_of_ne_nil (List.splitOnP_ne_nil _ p)

theorem isSeparator_period : isSeparator period = false := by decide

/-- A string begins with an empty component where it ends or a separator stands. -/
theorem head_separated_eq_nil (p : List UInt8) :
    (separated p).head? = some [] ↔ p.head?.all isSeparator := by
  cases p with
  | nil => simp [separated]
  | cons c p =>
    obtain ⟨hd, tl, hp⟩ := exists_separated p
    rw [separated_cons, hp]
    by_cases hc : isSeparator c <;> simp [hc]

/-- A string begins with the component `b :: n` if it begins with `b`, and what
follows begins with `n`. -/
theorem head_separated_eq_cons {b : UInt8} (hb : isSeparator b = false) (n : Name)
    (p : List UInt8) : (separated p).head? = some (b :: n) ↔
      p.head? = some b ∧ (separated p.tail).head? = some n := by
  cases p with
  | nil => simp [separated]
  | cons c p =>
    obtain ⟨hd, tl, hp⟩ := exists_separated p
    rw [separated_cons, List.tail_cons, hp]
    by_cases hc : isSeparator c
    · have hne : c ≠ b := by
        rintro rfl
        exact absurd (hc.symm.trans hb) (by decide)
      simp [hc, hne]
    · simp [hc]

/-- What the window sees: whether the component that begins here is `..`. -/
theorem head_separated_eq_dotdot (p : List UInt8) :
    (separated p).head? = some dotdot ↔
      p.head? = some period ∧ p.tail.head? = some period ∧ p.tail.tail.head?.all isSeparator := by
  have h : dotdot = [period, period] := rfl
  rw [h, head_separated_eq_cons isSeparator_period, head_separated_eq_cons isSeparator_period,
    head_separated_eq_nil]

/-- The scan finds every `..`, and nothing else. -/
theorem isrValidatePathLoop_eq (p : List UInt8) : ∀ prev : Option UInt8,
    isrValidatePathLoop prev p =
      if dotdot ∈ (separated p).tail ∨
        (prev.all isSeparator ∧ (separated p).head? = some dotdot) then -1 else 0 := by
  induction p with
  | nil =>
    intro prev
    have hnil : separated [] = [[]] := rfl
    rw [isrValidatePathLoop, hnil, if_neg]
    simp [dotdot]
  | cons c p ih =>
    intro prev
    have hwindow := head_separated_eq_dotdot (c :: p)
    rw [List.head?_cons, List.tail_cons, Option.some_inj] at hwindow
    rw [isrValidatePathLoop]
    split
    case isTrue h =>
      rw [if_pos]
      exact Or.inr ⟨h.2.2.1, hwindow.mpr ⟨h.1, h.2.1, h.2.2.2⟩⟩
    case isFalse h =>
      have hhead : ¬ (prev.all isSeparator ∧ (separated (c :: p)).head? = some dotdot) := by
        rintro ⟨hprev, hhd⟩
        obtain ⟨hc, hp, hpp⟩ := hwindow.mp hhd
        exact h ⟨hc, hp, hprev, hpp⟩
      obtain ⟨hd, tl, hsep⟩ := exists_separated p
      have htail : dotdot ∈ (separated (c :: p)).tail ↔
          dotdot ∈ tl ∨ (isSeparator c ∧ hd = dotdot) := by
        rw [separated_cons, hsep]
        by_cases hc : isSeparator c
        · simp only [hc, if_true, List.tail_cons, List.mem_cons, true_and]
          exact ⟨fun h => h.symm.imp id Eq.symm, fun h => h.symm.imp Eq.symm id⟩
        · simp [hc]
      rw [ih (some c), hsep]
      simp only [List.tail_cons, List.head?_cons, Option.all_some, Option.some_inj, hhead, or_false,
        htail]

/-- **`isr_validate_path` accepts exactly the valid paths.**  A path that is empty or absolute
is refused before the scan. -/
theorem isrValidatePath_eq (path : List UInt8) :
    isrValidatePath path = if ValidPath path then 0 else -1 := by
  unfold isrValidatePath
  cases path with
  | nil => rfl
  | cons c p =>
    simp only
    by_cases hc : isSeparator c
    · have hno : ¬ ValidPath (c :: p) := by
        rintro ⟨-, hhead, -⟩
        simp [hc] at hhead
      rw [if_pos hc, if_neg hno]
    · obtain ⟨hd, tl, hsep⟩ := exists_separated (c :: p)
      have hvalid : ValidPath (c :: p) ↔ ¬ (dotdot ∈ tl ∨ hd = dotdot) := by
        unfold ValidPath
        rw [hsep, List.mem_cons, or_comm, eq_comm (a := dotdot)]
        simp [hc]
      rw [if_neg hc, isrValidatePathLoop_eq, hsep]
      simp only [List.tail_cons, List.head?_cons, Option.all_none, Option.some_inj, true_and,
        hvalid]
      exact (ite_not _ _ _).symm

/-- A component between slashes that has no backslash is one between separators too. -/
theorem separated_of_components (p : List UInt8) : ∀ {n : Name},
    (∀ b ∈ n, isSeparator b = false) →
    ((components p).head? = some n → (separated p).head? = some n) ∧
      (n ∈ (components p).tail → n ∈ (separated p).tail) := by
  induction p with
  | nil => exact fun _ => ⟨fun h => h, fun h => h⟩
  | cons c p ih =>
    intro n hn
    obtain ⟨hd, tl, hcomp⟩ : ∃ hd tl, components p = hd :: tl :=
      List.exists_cons_of_ne_nil (components_ne_nil p)
    obtain ⟨hd', tl', hsep⟩ := exists_separated p
    rw [hcomp, hsep] at ih
    obtain ⟨ihhead, ihtail⟩ := ih hn
    rw [components_cons, separated_cons, hcomp, hsep]
    by_cases hslash : c = slash
    · have hc : isSeparator c = true := by rw [hslash]; decide
      rw [if_pos hslash, if_pos hc]
      refine ⟨fun h => h, fun h => ?_⟩
      rcases List.mem_cons.mp h with rfl | h
      · rw [← Option.some.inj (ihhead rfl)]
        exact List.mem_cons_self
      · exact List.mem_cons_of_mem _ (ihtail h)
    · rw [if_neg hslash]
      by_cases hc : isSeparator c
      · rw [if_pos hc]
        refine ⟨fun h => ?_, fun h => List.mem_cons_of_mem _ (ihtail h)⟩
        obtain rfl : c :: hd = n := Option.some.inj h
        exact absurd (hn c List.mem_cons_self) (by simp [hc])
      · rw [if_neg hc]
        refine ⟨fun h => ?_, fun h => ihtail h⟩
        obtain rfl : c :: hd = n := Option.some.inj h
        have hhd : hd' = hd :=
          Option.some.inj ((ih fun b hb => hn b (List.mem_cons_of_mem c hb)).1 rfl)
        rw [List.modifyHead_cons, List.head?_cons, hhd]

/-- A path that `isr_validate_path` accepts has no component `..`. -/
theorem dotdot_notMem_of_valid {path : List UInt8} (h : isrValidatePath path ≠ -1) :
    dotdot ∉ components path := by
  intro hmem
  apply h
  obtain ⟨hd, tl, hcomp⟩ : ∃ hd tl, components path = hd :: tl :=
    List.exists_cons_of_ne_nil (components_ne_nil path)
  have hdots : ∀ b ∈ dotdot, isSeparator b = false := by
    simp [dotdot, isSeparator, slash, backslash]
  obtain ⟨hhead, htail⟩ := @separated_of_components path dotdot hdots
  rw [hcomp] at hhead htail hmem
  rw [isrValidatePath_eq, if_neg]
  rintro ⟨-, -, hno⟩
  apply hno
  rcases List.mem_cons.mp hmem with rfl | hmem
  · exact List.mem_of_mem_head? (hhead rfl)
  · exact List.mem_of_mem_tail (htail hmem)

/-- A list of names none of which is `..`, in any order and with whatever other dots in
them, is a valid path once slashes are put between them. -/
theorem separated_intercalate {names : List Name} (hne : names ≠ [])
    (hnames : ∀ n ∈ names, ∀ b ∈ n, isSeparator b = false) :
    separated ([slash].intercalate names) = names := by
  have hslash : isSeparator slash = true := by decide
  induction names with
  | nil => exact absurd rfl hne
  | cons n names ih =>
    have hn : ∀ b ∈ n, isSeparator b = false := hnames n List.mem_cons_self
    cases names with
    | nil =>
      rw [List.intercalate_singleton]
      exact List.splitOnP_eq_singleton hn
    | cons m names =>
      rw [List.intercalate_cons_cons, List.append_assoc, List.singleton_append, separated,
        List.splitOnP_append_cons_of_forall_mem hn slash hslash]
      exact congrArg (n :: ·) (ih (by simp) fun k hk => hnames k (List.mem_cons_of_mem n hk))

/-! ## 2.  The scan and the buffer -/

/-- Whether a component begins at index `p`: at the beginning, or after a separator. -/
def opensAt (buf : List UInt8) (p : Nat) : Option Bool :=
  if p = 0 then some true else (buf[p - 1]?).map isSeparator

/-- The test in the loop of `isr_validate_path` at index `p`, read by read. -/
def dotdotAt (buf : List UInt8) (p : Nat) : Option Bool := do
  if (← buf[p]?) ≠ period then return false
  if (← buf[p + 1]?) ≠ period then return false
  if (← opensAt buf p) = false then return false
  let next ← buf[p + 2]?
  return next = 0 ∨ isSeparator next

/-- The loop of `isr_validate_path` at index `p`, read by read. -/
def validatePathReadsLoop (buf : List UInt8) : (fuel p : Nat) → Option Int
  | 0, _ => none
  | fuel + 1, p => do
    if (← buf[p]?) = 0 then return 0
    if (← dotdotAt buf p) then return -1
    validatePathReadsLoop buf fuel (p + 1)

/-- `isr_validate_path`, read by read; `none` if a read is outside of the buffer. -/
def isrValidatePathReads (buf : List UInt8) : Option Int := do
  if (← buf[0]?) = 0 then return -1
  if isSeparator (← buf[0]?) then return -1
  validatePathReadsLoop buf buf.length 0

theorem opensAt_append (pre s : List UInt8) :
    opensAt (pre ++ s) pre.length = some (pre.getLast?.all isSeparator) := by
  unfold opensAt
  split
  case isTrue h =>
    rw [List.eq_nil_of_length_eq_zero h]
    rfl
  case isFalse h =>
    obtain ⟨q, b, rfl⟩ := (List.eq_nil_or_concat pre).resolve_left (by rintro rfl; exact h rfl)
    simp

/-- The test reads no further than the terminator. -/
theorem dotdotAt_eq {pre p : List UInt8} {c : UInt8} (rest : List UInt8) (hp : 0 ∉ p) :
    dotdotAt (pre ++ c :: p ++ 0 :: rest) pre.length =
      some (decide (c = period ∧ p.head? = some period ∧ pre.getLast?.all isSeparator ∧
        p.tail.head?.all isSeparator)) := by
  have hget : ∀ i, (pre ++ c :: p ++ 0 :: rest)[pre.length + i]? = (c :: p ++ 0 :: rest)[i]? := by
    intro i
    rw [List.append_assoc, List.getElem?_append_right (Nat.le_add_right _ _),
      Nat.add_sub_cancel_left]
  have hopens : opensAt (pre ++ c :: p ++ 0 :: rest) pre.length =
      some (pre.getLast?.all isSeparator) := by
    rw [List.append_assoc]
    exact opensAt_append _ _
  have h0 := hget 0
  have h1 := hget 1
  have h2 := hget 2
  rw [Nat.add_zero] at h0
  unfold dotdotAt
  rw [h0, h1, h2, hopens]
  by_cases hc : c = period
  · by_cases hd : p.head? = some period
    · -- the third byte is one of the path, or the terminator
      obtain ⟨p, rfl⟩ : ∃ q, p = period :: q := List.head?_eq_some_iff.mp hd
      have hnext : (c :: period :: p ++ 0 :: rest)[2]? = some (p.headD 0) := by
        cases p <;> rfl
      have hsep : (decide (p.headD 0 = 0 ∨ isSeparator (p.headD 0))) =
          p.head?.all isSeparator := by
        cases p with
        | nil => rfl
        | cons e p =>
          have he : e ≠ 0 := by
            rintro rfl
            exact hp (by simp)
          simp [he]
      simp only [List.tail_cons]
      rw [hnext]
      cases hlast : pre.getLast?.all isSeparator with
      | false => simp [hc]
      | true => simpa [hc] using hsep
    · have hne : ((c :: p ++ 0 :: rest)[1]?) ≠ some period := by
        cases p with
        | nil => simp [period]
        | cons d p => simpa using hd
      obtain ⟨d, hd'⟩ : ∃ d, (c :: p ++ 0 :: rest)[1]? = some d := by
        cases p with
        | nil => exact ⟨0, rfl⟩
        | cons d p => exact ⟨d, rfl⟩
      rw [hd'] at hne ⊢
      have hne' : d ≠ period := fun h => hne (by rw [h])
      simp [hc, hd, hne']
  · simp [hc]

/-- The loop, at any position of the path. -/
theorem validatePathReadsLoop_eq (rest : List UInt8) (p : List UInt8) :
    ∀ {pre : List UInt8} {fuel : Nat}, 0 ∉ p → p.length < fuel →
      validatePathReadsLoop (pre ++ p ++ 0 :: rest) fuel pre.length =
        some (isrValidatePathLoop pre.getLast? p) := by
  induction p with
  | nil =>
    intro pre fuel _ hfuel
    obtain ⟨fuel, rfl⟩ : ∃ n, fuel = n + 1 := ⟨fuel - 1, by omega⟩
    rw [validatePathReadsLoop]
    simp [isrValidatePathLoop]
  | cons c p ih =>
    intro pre fuel hnul hfuel
    obtain ⟨fuel, rfl⟩ : ∃ n, fuel = n + 1 := ⟨fuel - 1, by omega⟩
    rw [List.mem_cons, not_or] at hnul
    rw [List.length_cons] at hfuel
    have hread : (pre ++ c :: p ++ 0 :: rest)[pre.length]? = some c := by simp
    have hnext : validatePathReadsLoop (pre ++ c :: p ++ 0 :: rest) fuel (pre.length + 1) =
        some (isrValidatePathLoop (some c) p) := by
      have h := @ih (pre ++ [c]) fuel hnul.2 (by omega)
      rw [List.append_assoc pre, List.singleton_append, List.length_append, List.length_singleton,
        List.getLast?_concat] at h
      exact h
    have hc : ¬ c = 0 := fun h => hnul.1 h.symm
    rw [validatePathReadsLoop, isrValidatePathLoop, dotdotAt_eq rest hnul.2, hread, hnext]
    simp only [Option.bind_eq_bind, Option.bind_some, if_neg hc, Option.pure_def]
    split <;> simp_all

/-- **The scan never reads beyond the terminator**: it has a result whatever follows, and
also where nothing follows. -/
theorem isrValidatePathReads_eq {path : List UInt8} (rest : List UInt8) (hnul : 0 ∉ path) :
    isrValidatePathReads (path ++ 0 :: rest) = some (isrValidatePath path) := by
  unfold isrValidatePathReads isrValidatePath
  cases path with
  | nil => rfl
  | cons c p =>
    have hc : ¬ c = 0 := fun h => hnul (by simp [h])
    have hloop := @validatePathReadsLoop_eq rest (c :: p) [] ((c :: p ++ 0 :: rest).length) hnul
      (by simp)
    rw [List.nil_append] at hloop
    have hread : (c :: p ++ 0 :: rest)[0]? = some c := rfl
    rw [hread]
    simp only [Option.bind_eq_bind, Option.bind_some, if_neg hc, Option.pure_def]
    split
    · rfl
    · exact hloop

/-- **What `isr_validate_path` accepts.**  It returns `0` for the valid paths and `-1`
for all others, never reading beyond the terminator; and no name but `..` makes it
refuse a path. -/
theorem validatePath_grammar (path rest : List UInt8) (hnul : 0 ∉ path) :
    isrValidatePathReads (path ++ 0 :: rest) = some (isrValidatePath path) ∧
      (isrValidatePath path = 0 ↔ ValidPath path) ∧
      (isrValidatePath path = -1 ↔ ¬ ValidPath path) ∧
      ∀ names : List Name, names ≠ [] → names.head? ≠ some [] →
        (∀ n ∈ names, n ≠ dotdot ∧ ∀ b ∈ n, isSeparator b = false) →
        isrValidatePath ([slash].intercalate names) = 0 := by
  refine ⟨isrValidatePathReads_eq rest hnul, ?_, ?_, ?_⟩
  · rw [isrValidatePath_eq]
    split <;> simp [*]
  · rw [isrValidatePath_eq]
    split <;> simp [*]
  · intro names hne hfirst hnames
    have hsep := separated_intercalate hne fun n hn => (hnames n hn).2
    obtain ⟨n, names, rfl⟩ := List.exists_cons_of_ne_nil hne
    obtain ⟨b, n, rfl⟩ : ∃ b m, n = b :: m :=
      List.exists_cons_of_ne_nil fun h => hfirst (by rw [h]; rfl)
    have hhead := (head_separated_eq_cons ((hnames _ List.mem_cons_self).2 b List.mem_cons_self)
      n _).mp (congrArg List.head? hsep)
    have hb : isSeparator b = false := (hnames _ List.mem_cons_self).2 b List.mem_cons_self
    rw [isrValidatePath_eq, if_pos]
    refine ⟨?_, ?_, ?_⟩
    · intro hnil
      rw [hnil] at hhead
      exact absurd hhead.1 (by simp)
    · rw [hhead.1]
      simp [hb]
    · rw [hsep]
      exact fun hmem => (hnames _ hmem).1 rfl

/-- Names that are full of dots. -/
theorem validatePath_grammar_dots :
    isrValidatePathReads
        ([0x2E, 0x2E, 0x2E, 0x2F, 0x2E, 0x2E, 0x61, 0x5C, 0x61, 0x2E, 0x2E] ++ [0]) = some 0 ∧
      isrValidatePath ([slash].intercalate [[0x2E, 0x2E, 0x2E], [0x2E, 0x2E, 0x61],
        [0x61, 0x2E, 0x2E], [0x61, 0x2E, 0x2E, 0x62]]) = 0 := by
  obtain ⟨hreads, hzero, -, hnames⟩ := validatePath_grammar
    [0x2E, 0x2E, 0x2E, 0x2F, 0x2E, 0x2E, 0x61, 0x5C, 0x61, 0x2E, 0x2E] [] (by decide)
  exact ⟨hreads.trans (congrArg some (hzero.mpr (by decide))),
    hnames _ (by decide) (by decide) (by simp [dotdot, isSeparator, slash, backslash])⟩

end IsrTransfer
