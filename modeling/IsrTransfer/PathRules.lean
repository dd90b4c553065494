import IsrTransfer.Paths

/-!
# What the path functions do

`isr_resolve_path` asks the system one question, where the parent leads, and the answer is a
function of the state, so the whole of it is: `resolvedPath`.

`isr_mkdir_recursive` makes one call for every path of a list that only depends on its argument
(`mkdirTargets`), goes on when a call fails, and returns the result of the last.  So there is one
relation for what may happen, a chain of calls along the list (`Mkdirs`), and the rules say that
the runs of the function are these chains: `ensures_isrMkdirRecursive` that a run is one, and
`reaches_isrMkdirRecursive` that each is a run.  Results about all runs use the first, results
that need a run the second.

Whatever the calls do, all that changes is that directories have been added
(`Mkdirs.dirsAdded`).  Most callers need no more than that, and do not look at the result either
(`ensures_isrMkdirRecursive'`).
-/

namespace IsrTransfer

open Effect Posix

variable {F : Faults} {lossy eof : Bool} {A : Guard (NetOp OsOp) World} {w : World}

/-! ## `isr_resolve_path` -/

/-- The result of `isr_resolve_path` in a state of the system. -/
def resolvedPath (s : Sys) (root relative : List UInt8) (outSize : Nat) :
    Option (List UInt8) :=
  let out := root ++ slash :: relative
  if outSize ≤ out.length then none
  else
    let tmp := strncpy out isrPathMax
    let resolved :=
      match strrchr slash tmp with
      | some (i + 1) =>
        let basename := strncpy (tmp.drop (i + 2)) isrPathMax
        match s.realpath (tmp.take (i + 1)) with
        | none => strncpy out isrPathMax
        | some rp => strncat (strncat rp [slash] isrPathMax) basename isrPathMax
      | _ => (s.realpath out).getD (strncpy out isrPathMax)
    if root.isPrefixOf resolved = false then none else some (strncpy resolved outSize)

theorem ensures_isrResolvePath {root relative : List UInt8} {outSize : Nat}
    {Q : Option (List UInt8) → World → Prop}
    (hA : ∀ path, A w (.sys (.realpath path)))
    (hQ : Q (resolvedPath w.sys root relative outSize) w) :
    Ensures (machine F lossy eof) A (isrResolvePath root relative outSize) Q w := by
  unfold isrResolvePath
  unfold resolvedPath at hQ
  simp only at hQ ⊢
  split at hQ
  · rw [if_pos ‹_›]
    exact hQ
  · rw [if_neg ‹_›]
    have hend : ∀ resolved : List UInt8,
        Q (if root.isPrefixOf resolved = false then none
          else some (strncpy resolved outSize)) w →
        Ensures (machine F lossy eof) A
          (if root.isPrefixOf resolved = false then pure none
            else pure (some (strncpy resolved outSize))) Q w := by
      intro resolved h
      split at h
      · rw [if_pos ‹_›]
        exact h
      · rw [if_neg ‹_›]
        exact h
    split
    · rename_i i hi
      simp only [hi] at hQ
      rw [ensures_bind, ensures_realpath]
      refine ⟨hA _, ?_⟩
      split
      · rename_i hrp
        rw [hrp] at hQ
        exact hend _ hQ
      · rename_i rp hrp
        rw [hrp] at hQ
        exact hend _ hQ
    · rename_i hno
      rw [ensures_bind, ensures_realpath]
      refine ⟨hA _, ?_⟩
      have hnone : ∀ {β : Type} (f : Nat → β) (b : β),
          (match strrchr slash (strncpy (root ++ slash :: relative) isrPathMax) with
            | some (i + 1) => f i
            | _ => b) = b := by
        intro β f b
        split
        · exact absurd ‹_› (hno _)
        · rfl
      rw [hnone] at hQ
      split
      · rename_i hrp
        rw [hrp] at hQ
        exact hend _ hQ
      · rename_i rp hrp
        rw [hrp] at hQ
        exact hend _ hQ

/-! ## `isr_mkdir_recursive` -/

/-- The paths the loop of `isr_mkdir_recursive` passes to `mkdir`, in order. -/
def mkdirTargetsLoop : (done rest : List UInt8) → List (List UInt8)
  | done, [] => [done]
  | done, c :: rest =>
    if c = slash ∨ c = backslash then done :: mkdirTargetsLoop (done ++ [slash]) rest
    else mkdirTargetsLoop (done ++ [c]) rest

/-- The paths `isr_mkdir_recursive` passes to `mkdir`, in order. -/
def mkdirTargets (path : List UInt8) : List (List UInt8) :=
  mkdirTargetsLoop ((strncpy path isrPathMax).take 1) ((strncpy path isrPathMax).drop 1)

/-- What one `mkdir` may do. -/
def MkdirStep (F : Faults) (s : Sys) (path : List UInt8) (r : MkdirResult) (s' : Sys) : Prop :=
  (r, s') = s.mkdir path ∨ (F.mkdirs ∧ r = .failed ∧ s' = s)

/-- Calls of `mkdir`, one after the other. -/
inductive Mkdirs (F : Faults) : Sys → List (List UInt8) → Sys → Prop where
  | nil (s : Sys) : Mkdirs F s [] s
  | cons {s s' s'' : Sys} {p : List UInt8} {ps : List (List UInt8)} {r : MkdirResult} :
      MkdirStep F s p r s' → Mkdirs F s' ps s'' → Mkdirs F s (p :: ps) s''

/-- The result of `isr_mkdir_recursive`, given that of the last call. -/
def mkdirStatus (r : MkdirResult) : Int := if r = .failed then -1 else 0

theorem ensures_isrMkdirRecursiveLoop {Q : Int → World → Prop} (rest : List UInt8) :
    ∀ {done : List UInt8} {w : World},
    (∀ ps p qs s, mkdirTargetsLoop done rest = ps ++ p :: qs → Mkdirs F w.sys ps s →
      A (w.withSys s) (.sys (.mkdir p))) →
    (∀ ps p s r s', mkdirTargetsLoop done rest = ps ++ [p] → Mkdirs F w.sys ps s →
      MkdirStep F s p r s' → Q (mkdirStatus r) (w.withSys s')) →
    Ensures (machine F lossy eof) A (isrMkdirRecursiveLoop done rest) Q w := by
  induction rest with
  | nil =>
    intro done w hA hQ
    have ha := hA [] done [] w.sys rfl (.nil _)
    rw [Proc.withSys_self] at ha
    have hq : ∀ r s', MkdirStep F w.sys done r s' → Q (mkdirStatus r) (w.withSys s') :=
      fun r s' hr => hQ [] done w.sys r s' rfl (.nil _) hr
    rw [isrMkdirRecursiveLoop, ensures_bind, ensures_sysCall]
    refine ⟨ha, fun r s' hr => ?_⟩
    have h := hq r s' hr
    cases r <;> exact h
  | cons c rest ih =>
    intro done w hA hQ
    rw [isrMkdirRecursiveLoop]
    rw [mkdirTargetsLoop] at hA hQ
    split
    case isTrue hsep =>
      rw [if_pos hsep] at hA hQ
      have ha := hA [] done _ w.sys rfl (.nil _)
      rw [Proc.withSys_self] at ha
      rw [ensures_bind, ensures_sysCall]
      refine ⟨ha, fun r s' hr => ih ?_ ?_⟩
      · intro ps p qs s hps hrun
        exact hA (done :: ps) p qs s (by rw [hps, List.cons_append]) (.cons hr hrun)
      · intro ps p s r' s'' hps hrun hr'
        exact hQ (done :: ps) p s r' s'' (by rw [hps, List.cons_append]) (.cons hr hrun) hr'
    case isFalse hsep =>
      rw [if_neg hsep] at hA hQ
      exact ih hA hQ

/-- The rule for `isr_mkdir_recursive`. -/
theorem ensures_isrMkdirRecursive {path : List UInt8} {Q : Int → World → Prop}
    (hA : ∀ ps p qs s, mkdirTargets path = ps ++ p :: qs → Mkdirs F w.sys ps s →
      A (w.withSys s) (.sys (.mkdir p)))
    (hQ : ∀ ps p s r s', mkdirTargets path = ps ++ [p] → Mkdirs F w.sys ps s →
      MkdirStep F s p r s' → Q (mkdirStatus r) (w.withSys s')) :
    Ensures (machine F lossy eof) A (isrMkdirRecursive path) Q w :=
  ensures_isrMkdirRecursiveLoop _ hA hQ

theorem Mkdirs.append {s s' s'' : Sys} {ps qs : List (List UInt8)} (h : Mkdirs F s ps s')
    (h' : Mkdirs F s' qs s'') : Mkdirs F s (ps ++ qs) s'' := by
  induction h with
  | nil => exact h'
  | cons hstep _ ih => exact .cons hstep (ih h')

/-- The rule for callers that do not look at the result. -/
theorem ensures_isrMkdirRecursive' {path : List UInt8} {Q : Int → World → Prop}
    (hA : ∀ ps p qs s, mkdirTargets path = ps ++ p :: qs → Mkdirs F w.sys ps s →
      A (w.withSys s) (.sys (.mkdir p)))
    (hQ : ∀ r s, Mkdirs F w.sys (mkdirTargets path) s → Q r (w.withSys s)) :
    Ensures (machine F lossy eof) A (isrMkdirRecursive path) Q w := by
  refine ensures_isrMkdirRecursive hA fun ps p s r s' hps hrun hr => ?_
  refine hQ _ s' ?_
  rw [hps]
  exact hrun.append (.cons hr (.nil _))

/-! ## What the calls may do, they can do -/

theorem exists_mkdirs (F : Faults) (s : Sys) (ps : List (List UInt8)) : ∃ s', Mkdirs F s ps s' := by
  induction ps generalizing s with
  | nil => exact ⟨s, .nil s⟩
  | cons p ps ih =>
    obtain ⟨s', hs'⟩ := ih (s.mkdir p).2
    exact ⟨s', .cons (Or.inl rfl) hs'⟩

theorem mkdirTargetsLoop_ne_nil (rest : List UInt8) : ∀ {done : List UInt8},
    mkdirTargetsLoop done rest ≠ [] := by
  induction rest with
  | nil => exact List.cons_ne_nil _ _
  | cons c rest ih =>
    intro done
    rw [mkdirTargetsLoop]
    split
    · exact List.cons_ne_nil _ _
    · exact ih

theorem Mkdirs.of_append {s s'' : Sys} {ps qs : List (List UInt8)}
    (h : Mkdirs F s (ps ++ qs) s'') : ∃ s', Mkdirs F s ps s' ∧ Mkdirs F s' qs s'' := by
  induction ps generalizing s with
  | nil => exact ⟨s, .nil s, h⟩
  | cons p ps ih =>
    cases h with
    | cons hstep hrest =>
      obtain ⟨s', hps, hqs⟩ := ih hrest
      exact ⟨s', .cons hstep hps, hqs⟩

/-- Every way the calls may go is the way of a run. -/
theorem reaches_isrMkdirRecursiveLoop (rest : List UInt8) : ∀ {done : List UInt8} {w : World}
    {ps : List (List UInt8)} {p : List UInt8} {s s' : Sys} {r : MkdirResult},
    mkdirTargetsLoop done rest = ps ++ [p] → Mkdirs F w.sys ps s → MkdirStep F s p r s' →
    Reaches (machine F lossy eof) (isrMkdirRecursiveLoop done rest) w (.ret (mkdirStatus r))
      (w.withSys s') := by
  induction rest with
  | nil =>
    intro done w ps p s s' r hps hs hr
    obtain ⟨rfl, hlast⟩ := @List.append_inj' _ [] _ _ _ hps rfl
    obtain rfl : done = p := List.singleton_inj.mp hlast
    cases hs
    refine .step (r := r) ⟨s', hr, rfl⟩ ?_
    cases r <;> exact .refl _ _
  | cons c rest ih =>
    intro done w ps p s s' r hps hs hr
    rw [mkdirTargetsLoop] at hps
    rw [isrMkdirRecursiveLoop]
    split
    case isTrue hsep =>
      rw [if_pos hsep] at hps
      cases ps with
      | nil => exact absurd (List.cons.inj hps).2 (mkdirTargetsLoop_ne_nil rest)
      | cons q ps =>
        obtain ⟨rfl, htail⟩ := List.cons.inj hps
        cases hs with
        | @cons _ s₁ _ _ _ r₁ hstep hrest =>
          exact .step (r := r₁) ⟨s₁, hstep, rfl⟩ (ih (w := w.withSys s₁) htail hrest hr)
    case isFalse hsep =>
      rw [if_neg hsep] at hps
      exact ih hps hs hr

theorem reaches_isrMkdirRecursive {path p : List UInt8} {ps : List (List UInt8)} {s s' : Sys}
    {r : MkdirResult} (hps : mkdirTargets path = ps ++ [p]) (hs : Mkdirs F w.sys ps s)
    (hr : MkdirStep F s p r s') :
    Reaches (machine F lossy eof) (isrMkdirRecursive path) w (.ret (mkdirStatus r))
      (w.withSys s') :=
  reaches_isrMkdirRecursiveLoop _ hps hs hr

/-- The same without the result. -/
theorem reaches_isrMkdirRecursive' {path : List UInt8} {s : Sys}
    (hs : Mkdirs F w.sys (mkdirTargets path) s) :
    ∃ r, Reaches (machine F lossy eof) (isrMkdirRecursive path) w (.ret r) (w.withSys s) := by
  have hne : mkdirTargets path ≠ [] := mkdirTargetsLoop_ne_nil _
  have hsplit := List.dropLast_append_getLast hne
  rw [← hsplit] at hs
  obtain ⟨s₁, hs₁, hlast⟩ := hs.of_append
  cases hlast with
  | cons hr hnil =>
    cases hnil
    exact ⟨_, reaches_isrMkdirRecursive hsplit.symm hs₁ hr⟩

/-! ## Directories that are added -/

theorem MkdirStep.dirsAdded {s s' : Sys} {p : List UInt8} {r : MkdirResult}
    (h : MkdirStep F s p r s') : s.DirsAdded s' := by
  rcases h with h | ⟨-, -, rfl⟩
  · rw [show s' = (s.mkdir p).2 from congrArg Prod.snd h]
    unfold Sys.mkdir
    split
    · exact Sys.DirsAdded.refl s
    · split
      · exact Sys.DirsAdded.refl s
      · split
        · exact Sys.DirsAdded.refl s
        · split
          · exact ⟨_, FS.dirsAdded_makeDir _ _, rfl⟩
          · exact Sys.DirsAdded.refl s
  · exact Sys.DirsAdded.refl _

theorem Mkdirs.dirsAdded {s s' : Sys} {ps : List (List UInt8)} (h : Mkdirs F s ps s') :
    s.DirsAdded s' := by
  induction h with
  | nil s => exact Sys.DirsAdded.refl s
  | cons hstep _ ih => exact hstep.dirsAdded.trans ih

end IsrTransfer
