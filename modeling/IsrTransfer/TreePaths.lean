import IsrTransfer.TreeServer

/-!
# The paths of a tree

A recursive operation puts the names of the entries after one path on its own side and one on
the server's (`under`).  Both are cut to a buffer, and the server's is so small that a path
that it takes for one under its root has not been cut (`uncut_of_fits`).
-/

namespace IsrTransfer

open Effect Posix

variable {root remotePath : List UInt8} {l : Loc} {n : Name}

/-- The path of an entry that the names `q` lead to. -/
def under (dir : List UInt8) (q : List Name) : List UInt8 := dir ++ q.flatMap (slash :: ·)

@[simp] theorem under_nil (dir : List UInt8) : under dir [] = dir := List.append_nil _

theorem under_cons (dir : List UInt8) (n : Name) (q : List Name) :
    under dir (n :: q) = under (dir ++ slash :: n) q := by
  rw [under, under, List.flatMap_cons, List.append_assoc]

/-- The path of an entry is longer than that of its directory. -/
theorem length_le_under (dir : List UInt8) (q : List Name) : dir.length ≤ (under dir q).length := by
  rw [under, List.length_append]
  exact Nat.le_add_right _ _

theorem placeOf_entry (hn : ValidName n) (path : List UInt8) :
    placeOf l (path ++ slash :: n) = n :: placeOf l path := by
  obtain ⟨hs, -⟩ := not_stays_of_valid hn
  rw [placeOf, components_append_slash, components_of_notMem (slash_notMem_of_valid hn),
    FS.descend_append, FS.descend_name hs, FS.descend_nil, placeOf]

/-- If the path of an entry, as the client asks for it, fits into the server's buffer, the
client has not cut it. -/
theorem uncut_of_fits (h0 : (0 : UInt8) ∉ remotePath) (hn : ValidName n)
    (hfits : (root ++ slash :: requested (snprintfPath remotePath n isrPathMax)).length < pathMax) :
    requested remotePath = remotePath ∧
      requested (snprintfPath remotePath n isrPathMax) = remotePath ++ slash :: n := by
  have hmax : isrPathMax = 4096 := rfl
  have hmax' : pathMax = 4096 := rfl
  have hlen := length_snprintfPath remotePath n isrPathMax
  rw [cstr_of_notMem h0, cstr_of_notMem hn.2.2.2.2.1] at hlen
  have hsame : requested (snprintfPath remotePath n isrPathMax) =
      snprintfPath remotePath n isrPathMax := requested_of_short (by omega)
  rw [hsame, List.length_append, List.length_cons] at hfits
  have hshort : (remotePath ++ slash :: n).length < isrPathMax := by
    rw [List.length_append, List.length_cons]
    omega
  rw [hsame, snprintfPath_of_short h0 hn.2.2.2.2.1 hshort]
  rw [List.length_append, List.length_cons] at hshort
  exact ⟨requested_of_short (by omega), rfl⟩

end IsrTransfer
