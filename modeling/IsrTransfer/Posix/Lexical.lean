import Mathlib.Data.List.Infix
import IsrTransfer.Posix.Walk

/-!
# Paths read by their names

Where a path leads depends on the file system.  What its names say does not: the
components in order, without those that are empty or `.`, where `..` takes back the name
before it.  A path that is to stay below a directory must not, read like this, leave it on
the way (`Confined`).
-/

namespace IsrTransfer
namespace Posix

/-- The names in a path. -/
def names (path : List UInt8) : List Name := FS.entryNames (components path)

/-- Read from `n` levels below a directory, the names leave that directory. -/
def climbs : (n : Nat) → List Name → Bool
  | _, [] => false
  | 0, c :: cs => if c = dotdot then true else climbs 1 cs
  | n + 1, c :: cs => if c = dotdot then climbs n cs else climbs (n + 2) cs

theorem climbs_mono {cs ds : List Name} (h : cs <+: ds) : ∀ {n : Nat},
    climbs n ds = false → climbs n cs = false := by
  induction cs generalizing ds with
  | nil => exact fun {n} _ => by cases n <;> rfl
  | cons c cs ih =>
    obtain ⟨rest, rfl⟩ := h
    have hcs : cs <+: cs ++ rest := List.prefix_append _ _
    intro n hn
    cases n with
    | zero =>
      rw [List.cons_append, climbs] at hn
      rw [climbs]
      split at hn
      · exact absurd hn (by decide)
      · rw [if_neg ‹_›]
        exact ih hcs hn
    | succ n =>
      rw [List.cons_append, climbs] at hn
      rw [climbs]
      split at hn
      · rw [if_pos ‹_›]
        exact ih hcs hn
      · rw [if_neg ‹_›]
        exact ih hcs hn

/-- The names `rest`, read from `dir` on, do not leave `dir`: there is nothing above the
root. -/
def StaysBelow (dir : List UInt8) (rest : List Name) : Prop :=
  (dir.head? = some slash ∧ names dir = []) ∨ climbs 0 rest = false

instance (dir : List UInt8) (rest : List Name) : Decidable (StaysBelow dir rest) :=
  inferInstanceAs (Decidable (_ ∨ _))

theorem StaysBelow.of_prefix {dir : List UInt8} {cs ds : List Name} (h : StaysBelow dir ds)
    (hcs : cs <+: ds) : StaysBelow dir cs :=
  h.imp_right (climbs_mono hcs)

/-- `path` is `dir`, or one of its ancestors, or a path that stays below `dir`. -/
structure Confined (dir path : List UInt8) : Prop where
  /-- Both start at the root, or neither does. -/
  start : path.head? = some slash ↔ dir.head? = some slash
  stays : names path <+: names dir ∨
    names dir <+: names path ∧ StaysBelow dir ((names path).drop (names dir).length)

instance (dir path : List UInt8) : Decidable (Confined dir path) :=
  decidable_of_iff ((path.head? = some slash ↔ dir.head? = some slash) ∧
    (names path <+: names dir ∨
      names dir <+: names path ∧ StaysBelow dir ((names path).drop (names dir).length)))
    ⟨fun h => ⟨h.1, h.2⟩, fun h => ⟨h.start, h.stays⟩⟩

theorem Confined.refl (dir : List UInt8) : Confined dir dir :=
  ⟨Iff.rfl, Or.inl (List.prefix_refl _)⟩

/-- What is in front of a slash has the first names of the path. -/
theorem names_prefix (p rest : List UInt8) : names p <+: names (p ++ slash :: rest) := by
  unfold names
  rw [components_append_slash, FS.entryNames, FS.entryNames, List.filter_append]
  exact List.prefix_append _ _

/-- An ancestor of a confined path is confined. -/
theorem Confined.of_append {dir p rest : List UInt8} (h : Confined dir (p ++ slash :: rest))
    (hne : p ≠ []) : Confined dir p := by
  obtain ⟨hstart, hstays⟩ := h
  refine ⟨?_, ?_⟩
  · obtain ⟨b, bs, rfl⟩ := List.exists_cons_of_ne_nil hne
    exact hstart
  · have hp := names_prefix p rest
    rcases hstays with hup | ⟨hdown, hbelow⟩
    · exact Or.inl (hp.trans hup)
    · rcases List.prefix_or_prefix_of_prefix hp hdown with hup | hdown'
      · exact Or.inl hup
      · exact Or.inr ⟨hdown', hbelow.of_prefix (hp.drop _)⟩

end Posix
end IsrTransfer
