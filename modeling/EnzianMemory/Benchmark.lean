import EnzianMemory.Footprint

/-!
`main` of `mb_enzian`: the options `getopt` hands it, `l2_cache_size`, the size of the mapping
at `area`, and the tests it then runs, in order. The tests after `do_overall` run on CPUs 0 and
1 whatever `-f` and `-l` said, and the stress loop never returns, so nothing after it runs.

`main_memory_safe` says exactly when every test stays inside `area` and inside the `tids` array
of `start_threads`, for every combination of options.
-/

namespace EnzianMemory.Benchmark

open Kernels

/-- What `getopt(argc, argv, "hbf:l:stmcpr:")` returns, with the value `main` reads from
`optarg`: `atoi(optarg)` for `-f` and `-l`, `optarg[0]` for `-r`. `unknown` is `'?'`, an
option outside the string or one missing its argument. -/
inductive Opt
  | h
  | b
  | f (arg : ℤ)
  | l (arg : ℤ)
  | s
  | t
  | m
  | c
  | p
  | r (mode : Char)
  | unknown
  deriving DecidableEq, Repr

/-- The globals `main` sets from its options, each an `unsigned` in the source. -/
structure Options where
  firstCpu : UInt32 := 0
  lastCpu : UInt32 := 0
  useCpuMemory : Bool := false
  doOverall : Bool := false
  doCacheToCache : Bool := false
  doLatency : Bool := false
  doSeqLatency : Bool := false
  doThroughput : Bool := false
  doStress : ℕ := 0
  deriving DecidableEq, Repr

/-- An `int` stored into an `unsigned`. -/
def toUnsigned (n : ℤ) : UInt32 :=
  (n % 2 ^ 32).toNat.toUInt32

/-- An `unsigned` passed as an `int`, in two's complement. -/
def toSigned (v : UInt32) : ℤ :=
  if v.toNat < 2 ^ 31 then v.toNat else v.toNat - 2 ^ 32

/-- One case of `switch (opt)`; `none` is the `assert(0)` of `default`. -/
def applyOpt (o : Options) : Opt → Option Options
  | .h => some o
  | .b => some { o with doOverall := true }
  | .f arg => some { o with firstCpu := toUnsigned arg }
  | .l arg => some { o with lastCpu := toUnsigned arg }
  | .s => some { o with doSeqLatency := true }
  | .t => some { o with doLatency := true }
  | .m => some { o with doThroughput := true }
  | .c => some { o with doCacheToCache := true }
  | .p => some { o with useCpuMemory := true }
  | .r mode =>
    some (if mode = 'w' then { o with doStress := 1 }
      else if mode = 'c' then { o with doStress := 2 }
      else if mode = 'r' then { o with doStress := 3 }
      else if mode = 'l' then { o with doStress := 4 }
      else o)
  | .unknown => none

/-- The `while ((opt = getopt(...)) != -1)` loop, from the zeroed globals. -/
def parseOptions (opts : List Opt) : Option Options :=
  opts.foldlM applyOpt {}

/-- `l2_cache_size = 16777216 / (last_cpu - first_cpu + 1)` in `unsigned` arithmetic. The file
builds for aarch64 only, where `UDIV` by zero gives 0, as `/` on `ℕ` does. -/
def l2CacheSize (firstCpu lastCpu : UInt32) : ℕ :=
  16777216 / (lastCpu - firstCpu + 1).toNat

/-- The bytes mapped at `area`: `SIZE * 48` of CPU memory in 1 GiB huge pages with `-p`, else
the FPGA's 1 TiB. -/
def areaBytes (useCpuMemory : Bool) : ℕ :=
  if useCpuMemory then 2 ^ 26 * 48 else 0x10000000000

/-- `first_cpu` and `last_cpu` as the tests see them: `do_overall` sets them to 0 and 1 before
every other test. -/
def Options.cpus (o : Options) : UInt32 × UInt32 :=
  if o.doOverall then (0, 1) else (o.firstCpu, o.lastCpu)

/-- `use_cpu_memory ? last_cpu : -1`, an `unsigned`, as the `int` `do_c2c_test` receives. -/
def secondCpu (useCpuMemory : Bool) (lastCpu : UInt32) : ℤ :=
  toSigned (if useCpuMemory then lastCpu else toUnsigned (-1))

/-- `area_test_size = 1 << i; itn = i > 22 ? 1 : 1 << (22 - i);` -/
def throughputConfig (l2 i : ℕ) : Config :=
  ⟨2 ^ i, if i > 22 then 1 else 2 ^ (22 - i), l2⟩

/-- The write, clear and read runs of `start_threads` that follow each other in `main`. -/
def kernelTests (cfg : Config) (firstCpu lastCpu : ℕ) : List Test :=
  [.threads .write cfg firstCpu lastCpu, .threads .clear cfg firstCpu lastCpu,
    .threads .read cfg firstCpu lastCpu]

/-- The touches that map the first three GiB of `area`. -/
def touchTests : List Test :=
  [.touch 0, .touch 0x40000000, .touch 0x80000000]

/-- `if (do_overall)`: CPUs 0 and 1 over 32 MiB slices, the core-to-core test, and a
sequential latency test over 64 MiB. -/
def overallTests (useCpuMemory : Bool) (l2 : ℕ) : List Test :=
  kernelTests ⟨2 ^ 25, 1, l2⟩ 0 1 ++ [.c2c 0 (secondCpu useCpuMemory 1), .seqLatency 26]

/-- `if (do_throughput)`: `for (i = 14; i <= 25; i++)`. -/
def throughputTests (l2 firstCpu lastCpu : ℕ) : List Test :=
  (List.range' 14 12).flatMap fun i => kernelTests (throughputConfig l2 i) firstCpu lastCpu

/-- The test `for (;;) switch (do_stress)` repeats, with `area_test_size = 1 << 25` and
`itn = 100`; `do_seq_latency_test(0)` of the default case loops by itself. -/
def stressTest (doStress l2 firstCpu lastCpu : ℕ) : Option Test :=
  let cfg : Config := ⟨2 ^ 25, 100, l2⟩
  match doStress with
  | 0 => none
  | 1 => some (.threads .write cfg firstCpu lastCpu)
  | 2 => some (.threads .clear cfg firstCpu lastCpu)
  | 3 => some (.threads .read cfg firstCpu lastCpu)
  | _ => some (.seqLatency 0)

/-- `if (do_cache_to_cache)`, `if (do_latency)` and `if (do_seq_latency)`, for sizes 16 KiB to
64 MiB. -/
def laterTests (o : Options) (firstCpu lastCpu : UInt32) : List Test :=
  (if o.doCacheToCache then [.c2c (toSigned firstCpu) (secondCpu o.useCpuMemory lastCpu)]
    else []) ++
  (if o.doLatency then (List.range' 14 13).map .latency else []) ++
  (if o.doSeqLatency then (List.range' 14 13).map .seqLatency else [])

/-- The tests `main` runs over `area` bytes: `tests` in order, then `forever` without end. -/
structure Plan where
  area : ℕ
  tests : List Test
  forever : Option Test

def Plan.all (p : Plan) : List Test :=
  p.tests ++ p.forever.toList

/-- The body of `main` after its options, with `l2_cache_size = l2`. -/
def plan (o : Options) (l2 : ℕ) : Plan :=
  let firstCpu := o.cpus.1
  let lastCpu := o.cpus.2
  let tests := touchTests ++ (if o.doOverall then overallTests o.useCpuMemory l2 else []) ++
    (if o.doThroughput then throughputTests l2 firstCpu.toNat lastCpu.toNat else [])
  match stressTest o.doStress l2 firstCpu.toNat lastCpu.toNat with
  | some t => ⟨areaBytes o.useCpuMemory, tests, some t⟩
  | none => ⟨areaBytes o.useCpuMemory, tests ++ laterTests o firstCpu lastCpu, none⟩

/-- `main`: the options, `l2_cache_size`, then the tests; `none` is the `assert(0)` on an
unknown option. -/
def main (opts : List Opt) : Option Plan :=
  (parseOptions opts).map fun o => plan o (l2CacheSize o.firstCpu o.lastCpu)

theorem toSigned_eq_neg_one {v : UInt32} : toSigned v = -1 ↔ v.toNat = 2 ^ 32 - 1 := by
  have := v.toNat_lt_size
  rw [UInt32.size] at this
  by_cases hh : v.toNat < 2 ^ 31
  · rw [toSigned, if_pos hh]; omega
  · rw [toSigned, if_neg hh]; omega

theorem forall_mem_ite {P : Test → Prop} {b : Bool} {L : List Test} :
    (∀ t ∈ (if b then L else []), P t) ↔ (b = true → ∀ t ∈ L, P t) := by
  cases b <;> simp

theorem areaBytes_ge (useCpuMemory : Bool) : 3221225472 ≤ areaBytes useCpuMemory := by
  cases useCpuMemory <;> decide

theorem two_pow_mod_cachelineSize {i : ℕ} (h : 7 ≤ i) : 2 ^ i % cachelineSize = 0 :=
  Nat.mod_eq_zero_of_dvd (pow_dvd_pow 2 h)

section Pieces

variable {n : ℕ}

theorem safe_kernelTests_iff {cfg : Config} (hS : 0 < cfg.areaTestSize)
    (h128 : cfg.areaTestSize % cachelineSize = 0) (hitn : 0 < cfg.itn) {firstCpu lastCpu : ℕ}
    (hlast : (lastCpu + 1) * cfg.areaTestSize < 2 ^ 64) :
    (∀ t ∈ kernelTests cfg firstCpu lastCpu, t.Safe n) ↔
      (firstCpu ≤ lastCpu → (lastCpu + 1) * cfg.areaTestSize ≤ n ∧ lastCpu < 128) := by
  simp only [kernelTests, List.forall_mem_cons, List.not_mem_nil, false_implies, implies_true,
    and_true, safe_threads_iff h128 hitn hS hlast, and_self]

theorem mul_two_pow_lt {cpu i : ℕ} (hcpu : cpu < 2 ^ 32) (hi : i ≤ 25) :
    (cpu + 1) * 2 ^ i < 2 ^ 64 :=
  calc (cpu + 1) * 2 ^ i ≤ (cpu + 1) * 2 ^ 25 :=
        Nat.mul_le_mul_left _ (Nat.pow_le_pow_right (by decide) hi)
    _ < 2 ^ 64 := by omega

theorem safe_throughputTests_iff {l2 firstCpu lastCpu : ℕ} (hcpu : lastCpu < 2 ^ 32) :
    (∀ t ∈ throughputTests l2 firstCpu lastCpu, t.Safe n) ↔
      (firstCpu ≤ lastCpu → (lastCpu + 1) * 2 ^ 25 ≤ n ∧ lastCpu < 128) := by
  have hpass : ∀ i, 14 ≤ i → i ≤ 25 → ((∀ t ∈ kernelTests (throughputConfig l2 i) firstCpu lastCpu,
      t.Safe n) ↔ (firstCpu ≤ lastCpu → (lastCpu + 1) * 2 ^ i ≤ n ∧ lastCpu < 128)) :=
    fun i hi hi' => safe_kernelTests_iff (Nat.two_pow_pos i) (two_pow_mod_cachelineSize (by omega))
      (by simp only [throughputConfig]; split_ifs <;> simp) (mul_two_pow_lt hcpu hi')
  simp only [throughputTests, List.forall_mem_flatMap, List.mem_range'_1]
  constructor
  · exact fun h => (hpass 25 (by omega) le_rfl).1 (h 25 (by omega))
  · intro h i hi
    refine (hpass i hi.1 (by omega)).2 fun hfl => ⟨le_trans ?_ (h hfl).1, (h hfl).2⟩
    exact Nat.mul_le_mul_left _ (Nat.pow_le_pow_right (by decide) (by omega))

theorem safe_stressTest_iff (hn : 3221225472 ≤ n) {doStress l2 firstCpu lastCpu : ℕ}
    (hcpu : lastCpu < 2 ^ 32) :
    (∀ t ∈ (stressTest doStress l2 firstCpu lastCpu).toList, t.Safe n) ↔
      (1 ≤ doStress ∧ doStress ≤ 3 → firstCpu ≤ lastCpu →
        (lastCpu + 1) * 2 ^ 25 ≤ n ∧ lastCpu < 128) := by
  have hthreads : ∀ k, (Test.threads k ⟨2 ^ 25, 100, l2⟩ firstCpu lastCpu).Safe n ↔
      (firstCpu ≤ lastCpu → (lastCpu + 1) * 2 ^ 25 ≤ n ∧ lastCpu < 128) :=
    fun _ => safe_threads_iff (show 2 ^ 25 % cachelineSize = 0 by decide) (show 0 < 100 by decide)
      (show 0 < 2 ^ 25 by decide) (mul_two_pow_lt hcpu le_rfl)
  rcases doStress with _ | _ | _ | _ | d
  · simp [stressTest]
  all_goals simp only [stressTest, Option.toList, List.forall_mem_cons, List.not_mem_nil,
    false_implies, implies_true, and_true, hthreads]
  · simp
  · simp
  · simp
  · exact iff_of_true (safe_seqLatency (le_trans (by decide) hn)) (fun h => absurd h.2 (by omega))

theorem safe_c2c_secondCpu_iff {useCpuMemory : Bool} {firstCpu : ℤ} {lastCpu : UInt32} :
    (Test.c2c firstCpu (secondCpu useCpuMemory lastCpu)).Safe (areaBytes useCpuMemory) ↔
      (useCpuMemory = true → lastCpu.toNat ≠ 2 ^ 32 - 1) := by
  rw [safe_c2c_iff]
  cases useCpuMemory
  · have hneg : secondCpu false lastCpu = -1 := by
      show toSigned (toUnsigned (-1)) = -1
      decide
    rw [c2cData, hneg, if_pos rfl]
    exact iff_of_true (by decide) (by simp)
  · simp only [secondCpu, c2cData, toSigned_eq_neg_one, areaBytes, if_true, true_implies]
    split_ifs with h
    · exact iff_of_false (by decide) (fun h' => h' h)
    · exact iff_of_true (by decide) h

theorem seqLatencyCells_le {size : ℕ} (h : size ≤ 26) : seqLatencyCells size ≤ 524288 := by
  have : 2 ^ size ≤ 2 ^ 26 := Nat.pow_le_pow_right (by decide) h
  simp only [seqLatencyCells, cachelineSize]
  split_ifs <;> omega

theorem safe_laterTests_iff (o : Options) (firstCpu lastCpu : UInt32) :
    (∀ t ∈ laterTests o firstCpu lastCpu, t.Safe (areaBytes o.useCpuMemory)) ↔
      (o.useCpuMemory = true → o.doCacheToCache = true → lastCpu.toNat ≠ 2 ^ 32 - 1) := by
  have hA := areaBytes_ge o.useCpuMemory
  have hlat : ∀ t ∈ (List.range' 14 13).map Test.latency,
      t.Safe (areaBytes o.useCpuMemory) := by
    simp only [List.forall_mem_map, List.mem_range'_1]
    intro size hs
    refine safe_latency (by omega) (by omega) (le_trans ?_ hA)
    exact le_trans (Nat.pow_le_pow_right (by decide) (by omega : size ≤ 26)) (by decide)
  have hseq : ∀ t ∈ (List.range' 14 13).map Test.seqLatency,
      t.Safe (areaBytes o.useCpuMemory) := by
    simp only [List.forall_mem_map, List.mem_range'_1]
    intro size hs
    have := seqLatencyCells_le (by omega : size ≤ 26)
    exact safe_seqLatency (by simp only [cachelineSize]; omega)
  simp only [laterTests, List.forall_mem_append, forall_mem_ite, List.forall_mem_cons,
    List.not_mem_nil, false_implies, implies_true, and_true, safe_c2c_secondCpu_iff, hlat, hseq]
  exact ⟨fun h hu hc => h.1.1 hc hu,
    fun h => ⟨⟨fun hc hu => h hu hc, fun _ => hlat⟩, fun _ => hseq⟩⟩

theorem safe_overallTests (useCpuMemory : Bool) (l2 : ℕ) :
    ∀ t ∈ overallTests useCpuMemory l2, t.Safe (areaBytes useCpuMemory) := by
  have hA := areaBytes_ge useCpuMemory
  have hkernel := @safe_kernelTests_iff (areaBytes useCpuMemory) ⟨2 ^ 25, 1, l2⟩
    (show 0 < 2 ^ 25 by decide) (show 2 ^ 25 % cachelineSize = 0 by decide) (show 0 < 1 by decide)
    0 1 (show (1 + 1) * 2 ^ 25 < 2 ^ 64 by decide)
  simp only [overallTests, List.forall_mem_append, hkernel, List.forall_mem_cons,
    List.not_mem_nil, false_implies, implies_true, and_true]
  exact ⟨fun _ => ⟨le_trans (by decide) hA, by decide⟩,
    safe_c2c_secondCpu_iff.2 fun _ => by decide, safe_seqLatency (le_trans (by decide) hA)⟩

end Pieces

theorem plan_all (o : Options) (l2 : ℕ) :
    (plan o l2).all = touchTests ++ (if o.doOverall then overallTests o.useCpuMemory l2 else []) ++
      (if o.doThroughput then throughputTests l2 o.cpus.1.toNat o.cpus.2.toNat else []) ++
      (match stressTest o.doStress l2 o.cpus.1.toNat o.cpus.2.toNat with
        | some t => [t]
        | none => laterTests o o.cpus.1 o.cpus.2) ∧
    (plan o l2).area = areaBytes o.useCpuMemory := by
  cases h : stressTest o.doStress l2 o.cpus.1.toNat o.cpus.2.toNat <;>
    simp [plan, Plan.all, h, List.append_assoc]

theorem stressTest_eq_none_iff {doStress l2 firstCpu lastCpu : ℕ} :
    stressTest doStress l2 firstCpu lastCpu = none ↔ doStress = 0 := by
  rcases doStress with _ | _ | _ | _ | d <;> simp [stressTest]

theorem main_memory_safe (o : Options) (l2 : ℕ) :
    (∀ t ∈ (plan o l2).all, t.Safe (plan o l2).area) ↔
      (o.doThroughput = true ∨ 1 ≤ o.doStress ∧ o.doStress ≤ 3 →
        o.cpus.1.toNat ≤ o.cpus.2.toNat →
          (o.cpus.2.toNat + 1) * 2 ^ 25 ≤ areaBytes o.useCpuMemory ∧ o.cpus.2.toNat < 128) ∧
        (o.useCpuMemory = true → o.doCacheToCache = true → o.doStress = 0 →
          o.cpus.2.toNat ≠ 2 ^ 32 - 1) := by
  obtain ⟨hall, harea⟩ := plan_all o l2
  have hA := areaBytes_ge o.useCpuMemory
  have hcpu : o.cpus.2.toNat < 2 ^ 32 := o.cpus.2.toNat_lt_size
  have htouch : ∀ t ∈ touchTests, t.Safe (areaBytes o.useCpuMemory) := by
    simp only [touchTests, List.forall_mem_cons, List.not_mem_nil, false_implies, implies_true,
      and_true, safe_touch_iff]
    omega
  rw [hall, harea]
  simp only [List.forall_mem_append, forall_mem_ite, safe_throughputTests_iff hcpu, or_imp,
    iff_true_intro htouch, iff_true_intro (safe_overallTests o.useCpuMemory l2), implies_true,
    true_and]
  cases hs : stressTest o.doStress l2 o.cpus.1.toNat o.cpus.2.toNat with
  | none => simp [safe_laterTests_iff, stressTest_eq_none_iff.1 hs]
  | some t =>
    have hd : o.doStress ≠ 0 := fun h => by simp [stressTest_eq_none_iff.2 h] at hs
    have hst := @safe_stressTest_iff _ hA o.doStress l2 o.cpus.1.toNat o.cpus.2.toNat hcpu
    simp only [hs, Option.toList] at hst
    simp only [hst, hd, false_implies, implies_true, and_true]

end EnzianMemory.Benchmark
