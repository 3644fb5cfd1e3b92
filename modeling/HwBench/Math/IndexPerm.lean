import Mathlib.Data.List.Nodup
import Mathlib.Data.List.Perm.Basic

/-!
# Vectors that permute their indices

A vector whose elements are its indices in some order holds each index at exactly
one place.
-/

namespace IndexPerm

variable {n : Nat} {v : Vector Nat n}

theorem getElem_lt (h : v.toList.Perm (List.range n)) {x : Nat} (hx : x < n) : v[x] < n := by
  have hmem : v[x] ∈ v.toList := Vector.mem_toList_iff.mpr (Vector.getElem_mem hx)
  exact List.mem_range.mp (h.mem_iff.mp hmem)

theorem getElem_inj (h : v.toList.Perm (List.range n)) {x y : Nat} (hx : x < n) (hy : y < n)
    (heq : v[x] = v[y]) : x = y := by
  have hnodup : v.toList.Nodup := h.nodup_iff.mpr List.nodup_range
  have hx' : x < v.toList.length := by simpa using hx
  have hy' : y < v.toList.length := by simpa using hy
  have heq' : v.toList[x] = v.toList[y] := by simpa using heq
  exact hnodup.getElem_inj_iff.mp heq'

theorem exists_getElem (h : v.toList.Perm (List.range n)) {y : Nat} (hy : y < n) :
    ∃ x, ∃ hx : x < n, v[x] = y := by
  have hmem := h.mem_iff.mpr (List.mem_range.mpr hy)
  exact Vector.getElem_of_mem (Vector.mem_toList_iff.mp hmem)

end IndexPerm
