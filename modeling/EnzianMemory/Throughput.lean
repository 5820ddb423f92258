import EnzianMemory.LatencyTest

/-!
The figure `start_threads` returns for the throughput kernels. Each of
`thread_write_cache_area`, `thread_clear_cache_area` and `thread_read_cache_area` times four
phases and returns the least of the four durations; the orchestrator adds the workers' figures
in `uint64_t` as it joins them and divides by their number.
-/

namespace EnzianMemory.Throughput

open EnzianMemory.Latency

/-- The phase loop the three kernels share: `min = UINT64_MAX; for (k = 0; k < 4; k++)
{ ...; if (cycles < min) min = cycles; }`, where `cycles k` is the duration of phase `k`. -/
def phaseMin (cycles : ℕ → UInt64) : UInt64 :=
  (List.range 4).foldl (fun min k => if cycles k < min then cycles k else min) uint64Max

/-- The joins of `start_threads`: `min = 0; ... min += retval; return min / (last_cpu -
first_cpu + 1);` over the workers' return values, one worker per CPU. -/
def startThreadsResult (retvals : List UInt64) : UInt64 :=
  retvals.foldl (· + ·) 0 / UInt64.ofNat retvals.length

def allPhasesMin (d : ℕ → ℕ) : ℕ :=
  min (min (min (d 0) (d 1)) (d 2)) (d 3)

theorem phaseMin_toNat (cycles : ℕ → UInt64) :
    (phaseMin cycles).toNat = allPhasesMin fun k => (cycles k).toNat := by
  have hstep : ∀ (m : UInt64) (k : ℕ),
      (if cycles k < m then cycles k else m).toNat = min (cycles k).toNat m.toNat := by
    intro m k
    by_cases h : cycles k < m
    · rw [if_pos h, min_eq_left (uint64_lt_iff.mp h).le]
    · rw [if_neg h, min_eq_right (Nat.le_of_not_lt (mt uint64_lt_iff.mpr h))]
  have h0 : (cycles 0).toNat ≤ uint64Max.toNat := Nat.le_of_lt_succ (cycles 0).toNat_lt_size
  simp only [phaseMin, List.range_succ, List.range_zero, List.nil_append, List.foldl_append,
    List.foldl_cons, List.foldl_nil]
  rw [hstep, hstep, hstep, hstep, min_eq_left h0, allPhasesMin]
  omega

theorem foldl_add_toNat (retvals : List UInt64) (a : UInt64) :
    (retvals.foldl (· + ·) a).toNat = (a.toNat + (retvals.map UInt64.toNat).sum) % 2 ^ 64 := by
  induction retvals generalizing a with
  | nil => simp [Nat.mod_eq_of_lt a.toNat_lt_size]
  | cons r rs ih =>
    have hadd : (a + r).toNat = (a.toNat + r.toNat) % 2 ^ 64 := BitVec.toNat_add ..
    rw [List.foldl_cons, ih, List.map_cons, List.sum_cons, hadd, Nat.mod_add_mod, Nat.add_assoc]

theorem startThreadsResult_toNat {retvals : List UInt64}
    (hsum : (retvals.map UInt64.toNat).sum < 2 ^ 64) (hlen : retvals.length < 2 ^ 64) :
    (startThreadsResult retvals).toNat = (retvals.map UInt64.toNat).sum / retvals.length := by
  rw [startThreadsResult, UInt64.toNat_div, foldl_add_toNat, UInt64.toNat_ofNat_of_lt hlen,
    show (0 : UInt64).toNat = 0 from rfl, Nat.zero_add, Nat.mod_eq_of_lt hsum]

theorem trialDiff_zero_toNat {now : ℕ → UInt64} {k : ℕ}
    (h : (now (2 * k)).toNat ≤ (now (2 * k + 1)).toNat) :
    (trialDiff now 0 k).toNat = (now (2 * k + 1)).toNat - (now (2 * k)).toNat := by
  simpa only [Nat.zero_add] using trialDiff_toNat 0 k (by simpa only [Nat.zero_add] using h)

theorem start_threads_average (workers : List (ℕ → UInt64)) (hlen : workers.length < 2 ^ 64)
    (hmono : ∀ now ∈ workers, ∀ k < 4, (now (2 * k)).toNat ≤ (now (2 * k + 1)).toNat)
    (hsum : (workers.map fun now => allPhasesMin fun k =>
      (now (2 * k + 1)).toNat - (now (2 * k)).toNat).sum < 2 ^ 64) :
    (startThreadsResult (workers.map fun now => phaseMin (trialDiff now 0))).toNat =
      (workers.map fun now => allPhasesMin fun k =>
        (now (2 * k + 1)).toNat - (now (2 * k)).toNat).sum / workers.length := by
  have hmap : (workers.map fun now => phaseMin (trialDiff now 0)).map UInt64.toNat =
      workers.map fun now => allPhasesMin fun k =>
        (now (2 * k + 1)).toNat - (now (2 * k)).toNat := by
    simp only [List.map_map, Function.comp_def]
    refine List.map_congr_left fun now hnow => ?_
    have h := hmono now hnow
    rw [phaseMin_toNat, allPhasesMin, allPhasesMin, trialDiff_zero_toNat (h 0 (by decide)),
      trialDiff_zero_toNat (h 1 (by decide)), trialDiff_zero_toNat (h 2 (by decide)),
      trialDiff_zero_toNat (h 3 (by decide))]
  rw [startThreadsResult_toNat (by rwa [hmap]) (by simpa using hlen), hmap, List.length_map]

theorem start_threads_average_cold_phase :
    (startThreadsResult ([fun i => UInt64.ofNat (10 * i),
        fun i => UInt64.ofNat ([0, 2, 2, 7, 7, 12, 12, 17].getD i 0)].map fun now =>
          phaseMin (trialDiff now 0))).toNat = 6 :=
  (start_threads_average [fun i => UInt64.ofNat (10 * i),
    fun i => UInt64.ofNat ([0, 2, 2, 7, 7, 12, 12, 17].getD i 0)] (by decide) (by decide)
    (by decide)).trans (by decide)

end EnzianMemory.Throughput
