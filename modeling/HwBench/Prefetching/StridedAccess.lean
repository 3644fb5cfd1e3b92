import HwBench.Machine.Loop
import HwBench.Math.ExactPeriod

/-!
# The strided array access test

Both loops of `run_strided_access` walk one array of `n` words with
`idx = (idx + stride) % n`. The second one computes the next index first and
prefetches its element.

As long as the addition cannot wrap, iteration `t` reads the element
`t * stride % n`. These indices have exact period `n / gcd(n, stride)`, which is
the whole footprint of the walk, however long it is.
-/

namespace HwBench

open Machine

namespace StridedAccess

/-- The variables of one walk. -/
structure Vars where
  sum : Word
  idx : Word

/-- `(idx + stride) % n` in `size_t` arithmetic. -/
def nextIdx (n stride idx : Word) : Word := (idx + stride) % n

section Bodies

variable {n : Word} (data : Vector Word n.toNat) (stride : Word)

/-- `sum += data[idx]; idx = (idx + stride) % n;` -/
def plainBody (s : Vars) : Option (Vars × Touch Nat Nat) := do
  let value ← data[s.idx.toNat]?
  some (⟨s.sum + value, nextIdx n stride s.idx⟩, ⟨s.idx.toNat, none⟩)

/-- `next_idx = (idx + stride) % n; __builtin_prefetch(&data[next_idx], 0, 0);`
then `sum += data[idx]; idx = next_idx;` -/
def prefetchBody (s : Vars) : Option (Vars × Touch Nat Nat) := do
  let next := nextIdx n stride s.idx
  let _ ← data[next.toNat]?
  let value ← data[s.idx.toNat]?
  some (⟨s.sum + value, next⟩, ⟨s.idx.toNat, some next.toNat⟩)

/-- The loop without prefetch, from `sum = 0` and `idx = 0`. -/
def runPlain (accesses : Nat) : Option (Vars × List (Touch Nat Nat)) :=
  countedLoop (plainBody data stride) accesses ⟨0, 0⟩

/-- The loop with prefetch, from `sum = 0` and `idx = 0`. -/
def runPrefetch (accesses : Nat) : Option (Vars × List (Touch Nat Nat)) :=
  countedLoop (prefetchBody data stride) accesses ⟨0, 0⟩

end Bodies

/-- The number of different elements read. -/
def footprint (touches : List (Touch Nat Nat)) : Nat := (touches.map Touch.read).toFinset.card

/-! ### The walk in exact arithmetic -/

section Walk

variable {n stride : Word}

/-- The index that iteration `t` reads. -/
def indexAt (n stride : Word) (t : Nat) : Nat := t * stride.toNat % n.toNat

theorem indexAt_lt (hn : 1 ≤ n.toNat) (stride : Word) (t : Nat) : indexAt n stride t < n.toNat :=
  Nat.mod_lt _ hn

/-- The addition does not wrap, so the remainder is that of the exact sum. -/
theorem nextIdx_indexAt (hn : 1 ≤ n.toNat) (hstride : n.toNat - 1 + stride.toNat < 2 ^ 64)
    {idx : Word} {t : Nat} (hidx : idx.toNat = indexAt n stride t) :
    (nextIdx n stride idx).toNat = indexAt n stride (t + 1) := by
  have hlt := indexAt_lt hn stride t
  have hexact : idx.toNat + stride.toNat < 2 ^ 64 := by omega
  rw [nextIdx, BitVec.toNat_umod, BitVec.toNat_add, Nat.mod_eq_of_lt hexact, hidx, indexAt,
    indexAt, Nat.mod_add_mod, Nat.succ_mul]

/-- `idx` before iteration `t`. -/
def idxAt (n stride : Word) (t : Nat) : Word := BitVec.ofNat 64 (indexAt n stride t)

theorem toNat_idxAt (hn : 1 ≤ n.toNat) (t : Nat) :
    (idxAt n stride t).toNat = indexAt n stride t := by
  have hlt := indexAt_lt hn stride t
  have hword := n.isLt
  rw [idxAt, BitVec.toNat_ofNat, Nat.mod_eq_of_lt (by omega)]

theorem nextIdx_idxAt (hn : 1 ≤ n.toNat) (hstride : n.toNat - 1 + stride.toNat < 2 ^ 64)
    (t : Nat) : nextIdx n stride (idxAt n stride t) = idxAt n stride (t + 1) := by
  apply BitVec.eq_of_toNat_eq
  rw [nextIdx_indexAt hn hstride (toNat_idxAt hn t), toNat_idxAt hn (t + 1)]

theorem idxAt_zero (n stride : Word) : idxAt n stride 0 = 0 := by
  rw [idxAt, indexAt, Nat.zero_mul, Nat.zero_mod, BitVec.ofNat_eq_ofNat]

/-- The element that iteration `t` reads. -/
def elementAt (data : Vector Word n.toNat) (hn : 1 ≤ n.toNat) (stride : Word) (t : Nat) : Word :=
  data.get ⟨indexAt n stride t, indexAt_lt hn stride t⟩

theorem getElem?_indexAt (data : Vector Word n.toNat) (hn : 1 ≤ n.toNat) (t : Nat) :
    data[indexAt n stride t]? = some (elementAt data hn stride t) :=
  Vector.getElem?_eq_getElem (indexAt_lt hn stride t)

/-- The variables before iteration `t`. -/
def varsAt (data : Vector Word n.toNat) (hn : 1 ≤ n.toNat) (stride : Word) (t : Nat) : Vars :=
  ⟨wrappingSum (elementAt data hn stride) t, idxAt n stride t⟩

theorem varsAt_zero (data : Vector Word n.toNat) (hn : 1 ≤ n.toNat) :
    varsAt data hn stride 0 = ⟨0, 0⟩ := by
  rw [varsAt, wrappingSum_zero, idxAt_zero]

variable (data : Vector Word n.toNat) (hn : 1 ≤ n.toNat)
  (hstride : n.toNat - 1 + stride.toNat < 2 ^ 64)

include hstride

theorem plainBody_varsAt (t : Nat) :
    plainBody data stride (varsAt data hn stride t) =
      some (varsAt data hn stride (t + 1), ⟨indexAt n stride t, none⟩) := by
  simp only [plainBody, varsAt, nextIdx_idxAt hn hstride t, toNat_idxAt hn t,
    getElem?_indexAt data hn t, Option.bind_eq_bind, Option.bind_some, wrappingSum_succ]

theorem prefetchBody_varsAt (t : Nat) :
    prefetchBody data stride (varsAt data hn stride t) =
      some (varsAt data hn stride (t + 1),
        ⟨indexAt n stride t, some (indexAt n stride (t + 1))⟩) := by
  simp only [prefetchBody, varsAt, nextIdx_idxAt hn hstride t, toNat_idxAt hn,
    getElem?_indexAt data hn, Option.bind_eq_bind, Option.bind_some, wrappingSum_succ]

theorem runPlain_eq (accesses : Nat) :
    runPlain data stride accesses = some (varsAt data hn stride accesses,
      (List.range accesses).map fun t => ⟨indexAt n stride t, none⟩) := by
  rw [runPlain, ← varsAt_zero data hn]
  exact countedLoop_eq (plainBody_varsAt data hn hstride) accesses

theorem runPrefetch_eq (accesses : Nat) :
    runPrefetch data stride accesses = some (varsAt data hn stride accesses,
      (List.range accesses).map
        fun t => ⟨indexAt n stride t, some (indexAt n stride (t + 1))⟩) := by
  rw [runPrefetch, ← varsAt_zero data hn]
  exact countedLoop_eq (prefetchBody_varsAt data hn hstride) accesses

end Walk

/-- A walk that reads `t * stride % n` at iteration `t` has read one period after
`n / gcd(n, stride)` iterations, and nothing new after that. -/
theorem footprint_eq {n : Word} (hn : 1 ≤ n.toNat) (stride : Word) (accesses : Nat)
    (prefetched : Nat → Option Nat) :
    footprint ((List.range accesses).map fun t => ⟨indexAt n stride t, prefetched t⟩) =
      min accesses (n.toNat / n.toNat.gcd stride.toNat) := by
  have hperiod : 0 < n.toNat / n.toNat.gcd stride.toNat :=
    Nat.div_pos (Nat.gcd_le_left _ hn) (Nat.gcd_pos_of_pos_left _ hn)
  rw [← (exactPeriod_mul_mod hn stride.toNat).card_image hperiod, footprint, List.map_map]
  rfl

/-- Both loops read the multiples of the stride, end with the same variables, and
touch exactly one period of the walk; each prefetch is for the next read. -/
theorem strided_access (n stride : Word) (hn : 1 ≤ n.toNat)
    (hstride : n.toNat - 1 + stride.toNat < 2 ^ 64) (data : Vector Word n.toNat)
    (accesses : Nat) :
    ∃ final plain prefetching,
      runPlain data stride accesses = some (final, plain) ∧
      runPrefetch data stride accesses = some (final, prefetching) ∧
      plain = (List.range accesses).map
        (fun t => ⟨t * stride.toNat % n.toNat, none⟩) ∧
      prefetching = (List.range accesses).map
        (fun t => ⟨t * stride.toNat % n.toNat, some ((t + 1) * stride.toNat % n.toNat)⟩) ∧
      final.sum = wrappingSum (elementAt data hn stride) accesses ∧
      footprint plain = min accesses (n.toNat / n.toNat.gcd stride.toNat) ∧
      footprint prefetching = min accesses (n.toNat / n.toNat.gcd stride.toNat) :=
  ⟨_, _, _, runPlain_eq data hn hstride accesses, runPrefetch_eq data hn hstride accesses,
    rfl, rfl, rfl, footprint_eq hn stride accesses _, footprint_eq hn stride accesses _⟩

theorem strided_access_six :
    ∃ final plain prefetching,
      runPlain (n := 6) #v[10, 11, 12, 13, 14, 15] 4 5 = some (final, plain) ∧
      runPrefetch (n := 6) #v[10, 11, 12, 13, 14, 15] 4 5 = some (final, prefetching) ∧
      footprint plain = 3 := by
  obtain ⟨final, plain, prefetching, hplain, hprefetch, _, _, _, hfootprint, _⟩ :=
    strided_access 6 4 (by decide) (by decide) #v[10, 11, 12, 13, 14, 15] 5
  exact ⟨final, plain, prefetching, hplain, hprefetch, hfootprint⟩

end StridedAccess
end HwBench
