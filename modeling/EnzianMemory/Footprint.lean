import EnzianMemory.Kernels
import EnzianMemory.LatencyTest

/-!
The bytes of `area` each test of `mb_enzian` writes or reads: the kernels `start_threads`
runs on the workers `first_cpu..last_cpu`, the two mailboxes of `do_c2c_test`, the pointer
table of `do_latency_test` and the cells a pass of `do_seq_latency_test` reads. Every test
gets an exact footprint here; `Benchmark` assembles them over the whole of `main`.
-/

namespace EnzianMemory.Benchmark

open Kernels

/-- The `thread_func` given to `start_threads`. -/
inductive Kernel
  | write
  | clear
  | read
  deriving DecidableEq, Repr

/-- One timed phase of the kernel on worker `me`. -/
def Kernel.phase : Kernel → Config → ℕ → List Access
  | .write => writeCacheAreaPhase
  | .clear => clearCacheAreaPhase
  | .read => readCacheAreaPhase

/-- `for (i = first_cpu; i <= last_cpu; i++)`: the workers `start_threads` creates, worker
`i` stored in `tids[i]`. -/
def startThreadsCpus (firstCpu lastCpu : ℕ) : List ℕ :=
  List.range' firstCpu (lastCpu + 1 - firstCpu)

/-- The accesses of one `start_threads` run: every worker runs its four phases. -/
def startThreadsAccesses (k : Kernel) (cfg : Config) (firstCpu lastCpu : ℕ) : List Access :=
  (startThreadsCpus firstCpu lastCpu).flatMap fun me =>
    (List.range 4).flatMap fun _ => k.phase cfg me

/-- `l` of `do_seq_latency_test(size)`, in cells; `size == 0` is the continuous test over
`1 << 26` bytes. `1 << size` is a C `int`, exact for every size `main` passes. -/
def seqLatencyCells (size : ℕ) : ℕ :=
  if size ≠ 0 then 2 ^ size / cachelineSize else 2 ^ 26 / cachelineSize

/-- One timed pass `for (i = 0; i < l; i += 8)` of `do_seq_latency_test`, from `i`: the cells
`c[i] .. c[i + 7]` whose first word it reads, in order. -/
def seqPass (l i : ℕ) : List ℕ :=
  if i < l then (List.range 8).map (i + ·) ++ seqPass l (i + 8) else []
termination_by l - i

/-- The cells `do_latency_test(size)` writes while filling the table (`c[o][0][0] = no` at the
`o` of every step) and those one chasing trial reads, the cells' first words being `c` when
the test starts; the other trials read the same table from the same `o = 0`. -/
def latencyTestCells (size : ℕ) (c : UInt64 → UInt64) : List UInt64 :=
  let l := Latency.latencyCells size
  let its := Latency.latencyIts size
  Latency.orbitList (Latency.nextCell l) (its * l).toNat 0 ++
    (Latency.chaseLoop (Latency.fillPointers l (its * l).toNat 0 c) (its * l / 8).toNat 0).1

/-- `c2c_data`: the FPGA's cache lines at `area + 0x8000000080` when `second_cpu == -1`,
else the start of `area`. -/
def c2cData (secondCpu : ℤ) : ℕ :=
  if secondCpu = -1 then 0x8000000080 else 0

/-- Byte `b` is one of the eight of the `uint64_t` at `addr`. -/
def WordAt (addr b : ℕ) : Prop :=
  addr ≤ b ∧ b < addr + 8

/-- What `main` runs, one test at a time. -/
inductive Test
  /-- `((uint8_t *)area)[addr] = 0` -/
  | touch (addr : ℕ)
  /-- `start_threads(first_cpu, last_cpu, thread_func)` under the globals `cfg` -/
  | threads (k : Kernel) (cfg : Config) (firstCpu lastCpu : ℕ)
  /-- `do_c2c_test(first_cpu, second_cpu)` -/
  | c2c (firstCpu secondCpu : ℤ)
  /-- `do_latency_test(size)` -/
  | latency (size : ℕ)
  /-- `do_seq_latency_test(size)` -/
  | seqLatency (size : ℕ)

/-- Byte `b` of `area` is written or read by the test, the cells' first words being `c` when
it starts. `c2c_data[0]` and `c2c_data[16]` are the two mailboxes of `do_c2c_test`. -/
def Test.Touches (c : UInt64 → UInt64) : Test → ℕ → Prop
  | .touch addr, b => b = addr
  | .threads k cfg firstCpu lastCpu, b =>
    ∃ acc ∈ startThreadsAccesses k cfg firstCpu lastCpu, acc.Touches b
  | .c2c _ secondCpu, b => WordAt (c2cData secondCpu) b ∨ WordAt (c2cData secondCpu + 8 * 16) b
  | .latency size, b => ∃ x ∈ latencyTestCells size c, WordAt (cachelineSize * x.toNat) b
  | .seqLatency size, b => ∃ x ∈ seqPass (seqLatencyCells size) 0, WordAt (cachelineSize * x) b

/-- The indices of `start_threads`' `pthread_t tids[128]` the test writes. -/
def Test.cpus : Test → List ℕ
  | .threads _ _ firstCpu lastCpu => startThreadsCpus firstCpu lastCpu
  | _ => []

/-- Every byte the test touches lies below `n`, whatever the cells hold when it starts, and
every index of `tids` it writes is below 128. -/
structure Test.Safe (n : ℕ) (t : Test) : Prop where
  within : ∀ c b, t.Touches c b → b < n
  tids : ∀ i ∈ t.cpus, i < 128

theorem seqPass_eq (l i : ℕ) : seqPass l i = List.range' i (8 * ((l - i + 7) / 8)) := by
  obtain ⟨n, hn⟩ : ∃ n, (l - i + 7) / 8 = n := ⟨_, rfl⟩
  rw [hn]
  induction n generalizing i with
  | zero => rw [seqPass, if_neg (by omega)]; rfl
  | succ n ih =>
    rw [seqPass, if_pos (by omega), ih (i + 8) (by omega), Nat.mul_succ,
      ← List.range'_append i 8 (8 * n) 1, Nat.one_mul, List.range'_eq_map_range i 8]

theorem mem_seqPass {l x : ℕ} : x ∈ seqPass l 0 ↔ x < 8 * ((l + 7) / 8) := by
  rw [seqPass_eq, List.mem_range'_1]
  omega

theorem cellWords_iff {m b : ℕ} :
    (∃ x < m, WordAt (cachelineSize * x) b) ↔
      b < cachelineSize * m ∧ b % cachelineSize < 8 := by
  simp only [WordAt, cachelineSize]
  constructor
  · rintro ⟨x, hx, h1, h2⟩
    omega
  · rintro ⟨h1, h2⟩
    exact ⟨b / 128, by omega, by omega, by omega⟩

section Kernel

variable {cfg : Config} (h128 : cfg.areaTestSize % cachelineSize = 0) (hitn : 0 < cfg.itn)
include h128 hitn

theorem phase_touches_iff {k : Kernel} {me b : ℕ} :
    (∃ acc ∈ k.phase cfg me, acc.Touches b) ↔ InSlice cfg me b := by
  constructor
  · rintro ⟨acc, hacc, hb⟩
    cases k
    exacts [touches_of_mem_phase h128 me (.inl hacc) hb,
      touches_of_mem_phase h128 me (.inr (.inl hacc)) hb,
      touches_of_mem_phase h128 me (.inr (.inr hacc)) hb]
  · intro hin
    obtain ⟨hw, hc, hr⟩ := touches_slice h128 me hitn hin
    cases k
    exacts [hw, hc, hr]

theorem touches_threads_iff (hS : 0 < cfg.areaTestSize) {k : Kernel} {firstCpu lastCpu : ℕ}
    (hlast : (lastCpu + 1) * cfg.areaTestSize < 2 ^ 64) {c : UInt64 → UInt64} {b : ℕ} :
    (Test.threads k cfg firstCpu lastCpu).Touches c b ↔
      firstCpu * cfg.areaTestSize ≤ b ∧ b < (lastCpu + 1) * cfg.areaTestSize := by
  rw [← exists_inSlice_iff hS hlast, Test.Touches]
  simp only [startThreadsAccesses, startThreadsCpus, List.mem_flatMap, List.mem_range'_1,
    List.mem_range]
  constructor
  · rintro ⟨acc, ⟨me, hme, -, -, hacc⟩, hb⟩
    exact ⟨me, hme.1, by omega, (phase_touches_iff h128 hitn).1 ⟨acc, hacc, hb⟩⟩
  · rintro ⟨me, h1, h2, hin⟩
    obtain ⟨acc, hacc, hb⟩ := (phase_touches_iff h128 hitn).2 hin
    exact ⟨acc, ⟨me, ⟨h1, by omega⟩, 0, by decide, hacc⟩, hb⟩

theorem safe_threads_iff (hS : 0 < cfg.areaTestSize) {k : Kernel} {firstCpu lastCpu n : ℕ}
    (hlast : (lastCpu + 1) * cfg.areaTestSize < 2 ^ 64) :
    (Test.threads k cfg firstCpu lastCpu).Safe n ↔
      (firstCpu ≤ lastCpu → (lastCpu + 1) * cfg.areaTestSize ≤ n ∧ lastCpu < 128) := by
  have hlt : firstCpu ≤ lastCpu ↔
      firstCpu * cfg.areaTestSize < (lastCpu + 1) * cfg.areaTestSize :=
    Nat.lt_succ_iff.symm.trans (Nat.mul_lt_mul_right hS).symm
  constructor
  · rintro ⟨hw, ht⟩ hfl
    have hb := hw (fun _ => 0) ((lastCpu + 1) * cfg.areaTestSize - 1)
      ((touches_threads_iff h128 hitn hS hlast).2 (by omega))
    refine ⟨by omega, ht lastCpu ?_⟩
    simp only [Test.cpus, startThreadsCpus, List.mem_range'_1]
    omega
  · intro h
    refine ⟨fun c b hb => ?_, fun i hi => ?_⟩
    · rw [touches_threads_iff h128 hitn hS hlast] at hb
      have := h (hlt.2 (by omega))
      omega
    · simp only [Test.cpus, startThreadsCpus, List.mem_range'_1] at hi
      have := h (by omega)
      omega

end Kernel

theorem exists_uint64_iff {m : ℕ} (hm : m ≤ 2 ^ 64) {P : ℕ → Prop} :
    (∃ x : UInt64, x.toNat < m ∧ P x.toNat) ↔ ∃ x < m, P x := by
  constructor
  · rintro ⟨x, hx, hp⟩
    exact ⟨x.toNat, hx, hp⟩
  · rintro ⟨x, hx, hp⟩
    have hv : (UInt64.ofNat x).toNat = x :=
      UInt64.toNat_ofNat_of_lt (lt_of_lt_of_le hx (hm.trans_eq rfl))
    exact ⟨UInt64.ofNat x, by rw [hv]; exact hx, by rw [hv]; exact hp⟩

section Latency

variable {size : ℕ} (h7 : 7 ≤ size) (h30 : size ≤ 30)
include h7 h30

theorem mem_latencyTestCells (c : UInt64 → UInt64) {x : UInt64} :
    x ∈ latencyTestCells size c ↔ x.toNat < 2 ^ (size - 7) := by
  have hl := Latency.latencyCells_toNat h7 h30
  have hn : (Latency.latencyCells size).toNat ≤
      (Latency.latencyIts size * Latency.latencyCells size).toNat := by
    rw [(Latency.latency_steps h7 h30).1]
    exact Nat.le_mul_of_pos_left _ (Latency.latencyIts_toNat ▸ Nat.two_pow_pos _)
  simp only [latencyTestCells, List.mem_append, ← hl]
  constructor
  · rintro (h | h)
    exacts [Latency.nextCell_orbit_lt hl h, (Latency.fill_then_chase h7 h30 c).2.2.2.2.1 x h]
  · exact fun h => .inl (Latency.mem_orbitList_nextCell hl hn h)

theorem touches_latency_iff {c : UInt64 → UInt64} {b : ℕ} :
    (Test.latency size).Touches c b ↔ b < 2 ^ size ∧ b % cachelineSize < 8 := by
  have hp : 2 ^ size = cachelineSize * 2 ^ (size - 7) := by
    rw [cachelineSize, show (128 : ℕ) = 2 ^ 7 from rfl, ← pow_add, Nat.add_sub_cancel' h7]
  have hm : 2 ^ (size - 7) ≤ 2 ^ 64 := Nat.pow_le_pow_right (by decide) (by omega)
  rw [Test.Touches, hp, ← cellWords_iff, ← exists_uint64_iff hm]
  simp only [mem_latencyTestCells h7 h30 c]

end Latency

theorem touches_seqLatency_iff {size : ℕ} {c : UInt64 → UInt64} {b : ℕ} :
    (Test.seqLatency size).Touches c b ↔
      b < cachelineSize * (8 * ((seqLatencyCells size + 7) / 8)) ∧ b % cachelineSize < 8 := by
  rw [← cellWords_iff, Test.Touches]
  simp only [mem_seqPass]

theorem Test.Safe.of_within {t : Test} {n : ℕ} (ht : t.cpus = [])
    (h : ∀ c b, t.Touches c b → b < n) : t.Safe n :=
  ⟨h, fun _ hi => absurd (ht ▸ hi) (List.not_mem_nil _)⟩

theorem safe_touch_iff {addr n : ℕ} : (Test.touch addr).Safe n ↔ addr < n :=
  ⟨fun h => h.within (fun _ => 0) addr rfl,
    fun h => .of_within rfl fun _ b hb => (show b = addr from hb) ▸ h⟩

theorem safe_c2c_iff {firstCpu secondCpu : ℤ} {n : ℕ} :
    (Test.c2c firstCpu secondCpu).Safe n ↔ c2cData secondCpu + 136 ≤ n := by
  constructor
  · intro h
    have := h.within (fun _ => 0) (c2cData secondCpu + 135) (.inr ⟨by omega, by omega⟩)
    omega
  · intro h
    refine .of_within rfl fun _ b hb => ?_
    rcases hb with ⟨-, hb⟩ | ⟨-, hb⟩ <;> omega

theorem safe_latency {size n : ℕ} (h7 : 7 ≤ size) (h30 : size ≤ 30) (hn : 2 ^ size ≤ n) :
    (Test.latency size).Safe n :=
  .of_within rfl fun _ _ hb => lt_of_lt_of_le ((touches_latency_iff h7 h30).1 hb).1 hn

theorem safe_seqLatency {size n : ℕ}
    (hn : cachelineSize * (seqLatencyCells size + 7) ≤ n) : (Test.seqLatency size).Safe n := by
  refine .of_within rfl fun _ b hb => ?_
  have := (touches_seqLatency_iff.1 hb).1
  simp only [cachelineSize] at this hn
  omega

end EnzianMemory.Benchmark
