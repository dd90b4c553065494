import IsrTransfer.Posix.Machine

/-!
# Runs that can be computed

One behaviour out of those that `machine` allows: every call moves all the bytes it can, nothing
fails that could succeed, and a directory is listed in the order of the table.  It answers every
operation by a function, so that a run on a given input can be evaluated (`execute`) and is a run
(`reaches_execute`).

This is for counterexamples and witnesses.  A statement about every run is refuted by one run, and
`reaches_execute` makes such a run out of an evaluation: what is asked of the last state is a
closed term, and computed.  Nothing fails in that run, so it is a run of `machine` for every `F`
and every network.  The peer sends a list of bytes, and then closes the connection.
-/

namespace IsrTransfer
namespace Posix

open Effect

variable {ρ α β : Type}

namespace Sys

/-- The answer to a read. -/
def readAnswer (s : Sys) (fd : Fd) (len : Nat) : Option (List UInt8) × Sys :=
  match s.script with
  | some sc =>
    match sc.reads with
    | [] => (some [], s)
    | x :: xs => (x.map (List.take len), { s with script := some { sc with reads := xs } })
  | none =>
    match s.unread fd with
    | none => (none, s)
    | some rest =>
      if len = 0 ∨ rest = [] then (some [], s)
      else (some (rest.take (min len rest.length)), s.advance fd (min len rest.length))

/-- The answer to `stat`. -/
def statAnswer (s : Sys) (path : List UInt8) : Option (Bool × Nat) :=
  match s.resolve path with
  | none => none
  | some l =>
    match s.fs.node l with
    | some .dir => some (true, 0)
    | some (.file i) =>
      match s.script with
      | some sc => some (false, sc.size)
      | none => some (false, (s.fs.data i).length)
    | _ => none

/-- The answer to `opendir`. -/
def opendirAnswer (s : Sys) (path : List UInt8) : Option (List Name) :=
  match s.resolve path with
  | none => none
  | some l =>
    match s.fs.node l with
    | some .dir => some (dot :: dotdot :: s.fs.children l)
    | _ => none

/-- The answer to a call. -/
def answer (s : Sys) : OsOp ρ → Option (ρ × Sys)
  | .openRead p => some (s.openRead p)
  | .openWrite p => some (s.openWrite p)
  | .close _ => some ((), s)
  | .read fd len => some (s.readAnswer fd len)
  | .write fd data => if data = [] then none else some (some data.length, s.write fd data)
  | .stat p => some (s.statAnswer p, s)
  | .mkdir p => some (s.mkdir p)
  | .realpath p => some (s.realpath p, s)
  | .opendir p => some (s.opendirAnswer p, s)
  | .malloc _ => some (true, s)
  | .print line => some ((), { s with printed := s.printed ++ [line] })
  | .eprint line => some ((), { s with errors := s.errors ++ [line] })
  | .spin => none

theorem readStep_answer (s : Sys) (fd : Fd) (len : Nat) :
    s.ReadStep fd len (s.readAnswer fd len).1 (s.readAnswer fd len).2 := by
  unfold ReadStep readAnswer
  cases s.script with
  | some sc =>
    simp only
    cases sc.reads with
    | nil => exact ⟨rfl, rfl⟩
    | cons x xs => exact ⟨rfl, rfl⟩
  | none =>
    simp only
    cases s.unread fd with
    | none => exact ⟨rfl, rfl⟩
    | some rest =>
      simp only
      split
      · exact ⟨rfl, rfl⟩
      · rename_i hmore
        rw [not_or] at hmore
        have hpos : 0 < rest.length := List.length_pos_iff.mpr hmore.2
        exact ⟨min len rest.length, by omega, by omega, by omega, rfl, rfl⟩

theorem statStep_answer (s : Sys) (path : List UInt8) : s.StatStep path (s.statAnswer path) := by
  unfold StatStep statAnswer
  cases s.resolve path with
  | none => rfl
  | some l =>
    simp only
    rcases s.fs.node l with - | nd
    · rfl
    · cases nd with
      | dir => exact ⟨0, by decide, rfl⟩
      | link t => rfl
      | file i => cases s.script <;> rfl

theorem opendirStep_answer (s : Sys) (path : List UInt8) :
    s.OpendirStep path (s.opendirAnswer path) := by
  unfold OpendirStep opendirAnswer
  cases s.resolve path with
  | none => rfl
  | some l =>
    simp only
    rcases s.fs.node l with - | nd
    · rfl
    · cases nd with
      | dir => exact ⟨_, List.Perm.refl _, rfl⟩
      | link t => rfl
      | file i => rfl

theorem step_of_answer {F : Faults} {s s' : Sys} {op : OsOp ρ} {r : ρ}
    (h : s.answer op = some (r, s')) : step F s op r s' := by
  cases op with
  | openRead p => exact Or.inl (Option.some.inj h).symm
  | openWrite p => exact Or.inl (Option.some.inj h).symm
  | close fd => exact (congrArg Prod.snd (Option.some.inj h)).symm
  | read fd len =>
    have hr := readStep_answer s fd len
    rw [show s.readAnswer fd len = (r, s') from Option.some.inj h] at hr
    exact Or.inl hr
  | write fd data =>
    rw [answer] at h
    split at h
    · exact absurd h (by simp)
    · rename_i hne
      obtain ⟨rfl, rfl⟩ := Prod.mk.inj (Option.some.inj h)
      refine Or.inl ⟨data.length, List.length_pos_iff.mpr hne, Nat.le_refl _, rfl, ?_⟩
      rw [List.take_length]
  | stat p =>
    obtain ⟨rfl, rfl⟩ := Prod.mk.inj (Option.some.inj h)
    exact ⟨statStep_answer s p, rfl⟩
  | mkdir p => exact Or.inl (Option.some.inj h).symm
  | realpath p =>
    obtain ⟨rfl, rfl⟩ := Prod.mk.inj (Option.some.inj h)
    exact ⟨rfl, rfl⟩
  | opendir p =>
    obtain ⟨rfl, rfl⟩ := Prod.mk.inj (Option.some.inj h)
    exact ⟨Or.inl (opendirStep_answer s p), rfl⟩
  | malloc n =>
    obtain ⟨rfl, rfl⟩ := Prod.mk.inj (Option.some.inj h)
    exact ⟨Or.inl rfl, rfl⟩
  | print line => exact (congrArg Prod.snd (Option.some.inj h)).symm
  | eprint line => exact (congrArg Prod.snd (Option.some.inj h)).symm
  | spin => exact absurd h (by simp [answer])

end Sys

/-- The answer to an operation, when the peer sends `input` on a new connection and
then closes it. -/
def machineAnswer (input : List UInt8) (w : World) : NetOp OsOp ρ → Option (ρ × World)
  | .connect => some (true, Proc.start w.sys input)
  | .send data => if data = [] then none else some (some data.length, w.sent data)
  | .recv _ len =>
    if w.rx = [] then some (none, w)
    else if len = 0 then none
    else some (some (w.rx.take (min len w.rx.length)), w.received (min len w.rx.length))
  | .close => some ((), w)
  | .sys op => (w.sys.answer op).map fun rs => (rs.1, w.withSys rs.2)

theorem machine_of_answer {F : Faults} {lossy : Bool} {input : List UInt8} {w w' : World}
    {op : NetOp OsOp ρ} {r : ρ} (h : machineAnswer input w op = some (r, w')) :
    machine F lossy true w op r w' := by
  cases op with
  | connect =>
    obtain ⟨rfl, rfl⟩ := Prod.mk.inj (Option.some.inj h)
    exact Or.inl ⟨rfl, input, rfl⟩
  | send data =>
    rw [machineAnswer] at h
    split at h
    · exact absurd h (by simp)
    · rename_i hne
      obtain ⟨rfl, rfl⟩ := Prod.mk.inj (Option.some.inj h)
      refine Or.inl ⟨data.length, List.length_pos_iff.mpr hne, Nat.le_refl _, rfl, ?_⟩
      rw [List.take_length]
  | recv room len =>
    rw [machineAnswer] at h
    split at h
    · rename_i hrx
      obtain ⟨rfl, rfl⟩ := Prod.mk.inj (Option.some.inj h)
      exact Or.inr ⟨Or.inr ⟨rfl, hrx⟩, rfl, rfl⟩
    · rename_i hrx
      split at h
      · exact absurd h (by simp)
      · obtain ⟨rfl, rfl⟩ := Prod.mk.inj (Option.some.inj h)
        have hpos : 0 < w.rx.length := List.length_pos_iff.mpr hrx
        exact Or.inl ⟨min len w.rx.length, by omega, by omega, by omega, rfl, rfl⟩
  | close =>
    obtain ⟨-, rfl⟩ := Prod.mk.inj (Option.some.inj h)
    rfl
  | sys op =>
    obtain ⟨⟨r', s'⟩, hs, hr⟩ := Option.map_eq_some_iff.mp h
    obtain ⟨rfl, rfl⟩ := Prod.mk.inj hr
    exact ⟨s', Sys.step_of_answer hs, rfl⟩

/-- **What is computed is a run**, and what it is asked for at the end is so.  The
peer sends `i`. -/
theorem reaches_execute {F : Faults} {b : Bool} {i : List UInt8} {p : Prog α} {w : World}
    {g : α × World → β} {y : β}
    (h : (execute (fun _ w op => machineAnswer i w op) p w).map g = some y) :
    ∃ a v, Reaches (machine F b true) p w (.ret a) v ∧ g (a, v) = y := by
  obtain ⟨⟨a, v⟩, hrun, hy⟩ := Option.map_eq_some_iff.mp h
  exact ⟨a, v, reaches_of_execute (fun _ _ _ _ _ => machine_of_answer) hrun, hy⟩

end Posix
end IsrTransfer
