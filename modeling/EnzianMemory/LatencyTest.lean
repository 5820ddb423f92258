import EnzianMemory.ChaseCycle

namespace EnzianMemory.Latency

/-- `CACHELINE_SIZE`. -/
def cachelineSize : ℕ := 128

/-- `l = (1 << size) / CACHELINE_SIZE`; `1 << size` is a C `int`, exact for `size ≤ 30`. -/
def latencyCells (size : ℕ) : UInt64 :=
  UInt64.ofNat (2 ^ size / cachelineSize)

/-- `ITS = size < 12 ? 1 << (12 - size) : 1; if (ITS == 0) ITS = 1;` -/
def latencyIts (size : ℕ) : UInt64 :=
  let its : UInt64 := if size < 12 then UInt64.ofNat (2 ^ (12 - size)) else 1
  if its = 0 then 1 else its

/-- The fill loop, `n` rounds of `no = (o * 13 + 7) & (l - 1); c[o][0][0] = no; o = no`,
on the first slot of every cell. -/
def fillPointers (l : UInt64) : ℕ → UInt64 → (UInt64 → UInt64) → UInt64 → UInt64
  | 0, _, c => c
  | n + 1, o, c => fillPointers l n (nextCell l o) (Function.update c o (nextCell l o))

/-- One pass of the unrolled chase body, eight dependent loads `o = c[o][0][0]`:
the cells read and the final `o`. -/
def chaseBody (c : UInt64 → UInt64) (o : UInt64) : List UInt64 × UInt64 :=
  let o1 := c o
  let o2 := c o1
  let o3 := c o2
  let o4 := c o3
  let o5 := c o4
  let o6 := c o5
  let o7 := c o6
  ([o, o1, o2, o3, o4, o5, o6, o7], c o7)

/-- `for (i = 0; i < n; i++)` over `chaseBody`. -/
def chaseLoop (c : UInt64 → UInt64) : ℕ → UInt64 → List UInt64 × UInt64
  | 0, o => ([], o)
  | n + 1, o =>
    let (r, o') := chaseBody c o
    let (r', o'') := chaseLoop c n o'
    (r ++ r', o'')

theorem fillPointers_apply (l : UInt64) (n : ℕ) (o : UInt64) (c : UInt64 → UInt64) (x : UInt64) :
    fillPointers l n o c x =
      if x ∈ orbitList (nextCell l) n o then nextCell l x else c x := by
  induction n generalizing o c with
  | zero => simp [fillPointers, orbitList]
  | succ n ih =>
    rw [fillPointers, ih]
    by_cases hx : x = o
    · subst hx; simp [orbitList]
    · simp [orbitList, hx, Function.update_noteq]

theorem chaseBody_eq (c : UInt64 → UInt64) (o : UInt64) :
    chaseBody c o = (orbitList c 8 o, c^[8] o) := rfl

theorem chaseLoop_eq (c : UInt64 → UInt64) (n : ℕ) (o : UInt64) :
    chaseLoop c n o = (orbitList c (8 * n) o, c^[8 * n] o) := by
  induction n generalizing o with
  | zero => rfl
  | succ n ih =>
    simp only [chaseLoop, chaseBody_eq, ih, ← Function.iterate_add_apply]
    rw [Nat.mul_succ, Nat.add_comm, orbitList_add]

end EnzianMemory.Latency

namespace EnzianMemory.Latency

theorem uint64_toNat_mul (a b : UInt64) : (a * b).toNat = a.toNat * b.toNat % 2 ^ 64 :=
  BitVec.toNat_mul ..

theorem two_pow_lt_size {e : ℕ} (h : e < 64) : 2 ^ e < UInt64.size :=
  lt_of_lt_of_eq (Nat.pow_lt_pow_right (by decide) h) rfl

section Sizes

variable {size : ℕ}

theorem latencyCells_toNat (h7 : 7 ≤ size) (h30 : size ≤ 30) :
    (latencyCells size).toNat = 2 ^ (size - 7) := by
  have he : 2 ^ size / cachelineSize = 2 ^ (size - 7) := by
    rw [cachelineSize, show (128 : ℕ) = 2 ^ 7 from rfl, Nat.pow_div h7 (by decide)]
  rw [latencyCells, he]
  exact UInt64.toNat_ofNat_of_lt (two_pow_lt_size (by omega))

theorem latencyIts_toNat : (latencyIts size).toNat = 2 ^ (12 - size) := by
  by_cases hs : size < 12
  · have hv : (UInt64.ofNat (2 ^ (12 - size))).toNat = 2 ^ (12 - size) :=
      UInt64.toNat_ofNat_of_lt (two_pow_lt_size (by omega))
    have hne : UInt64.ofNat (2 ^ (12 - size)) ≠ 0 := fun h => by
      simp [h] at hv
      exact absurd hv.symm (Nat.two_pow_pos _).ne'
    simp [latencyIts, hs, hne, hv]
  · simp [latencyIts, hs, Nat.sub_eq_zero_of_le (Nat.le_of_not_lt hs)]

theorem latency_steps (h7 : 7 ≤ size) (h30 : size ≤ 30) :
    (latencyIts size * latencyCells size).toNat =
        (latencyIts size).toNat * (latencyCells size).toNat ∧
      8 * (latencyIts size * latencyCells size / 8).toNat =
        (latencyIts size).toNat * (latencyCells size).toNat := by
  have hp : (latencyIts size).toNat * (latencyCells size).toNat = 2 ^ (12 - size + (size - 7)) := by
    rw [latencyIts_toNat, latencyCells_toNat h7 h30, pow_add]
  have hlt : 2 ^ (12 - size + (size - 7)) < 2 ^ 64 := Nat.pow_lt_pow_right (by decide) (by omega)
  have hprod : (latencyIts size * latencyCells size).toNat =
      (latencyIts size).toNat * (latencyCells size).toNat := by
    rw [uint64_toNat_mul, hp, Nat.mod_eq_of_lt hlt]
  refine ⟨hprod, ?_⟩
  rw [UInt64.toNat_div, hprod, hp, show (UInt64.toNat 8) = 2 ^ 3 from rfl,
    Nat.pow_div (by omega) (by decide), show 8 = 2 ^ 3 from rfl, ← pow_add]
  congr 1; omega

theorem fill_then_chase (h7 : 7 ≤ size) (h30 : size ≤ 30) (c : UInt64 → UInt64) :
    let l := latencyCells size
    let its := latencyIts size
    let table := fillPointers l (its * l).toNat 0 c
    let trial := chaseLoop table (its * l / 8).toNat 0
    (∀ o : UInt64, o.toNat < l.toNat → (table o).toNat = (13 * o.toNat + 7) % l.toNat) ∧
      (∀ o : UInt64, l.toNat ≤ o.toNat → table o = c o) ∧
      trial.1.length = (its * l).toNat ∧
      (∀ x : UInt64, x.toNat < l.toNat → trial.1.count x = its.toNat) ∧
      (∀ x ∈ trial.1, x.toNat < l.toNat) ∧ trial.2 = 0 := by
  intro l its table trial
  have hl : l.toNat = 2 ^ (size - 7) := latencyCells_toNat h7 h30
  obtain ⟨hprod, hdiv⟩ := latency_steps h7 h30
  have hits : 0 < its.toNat := latencyIts_toNat ▸ Nat.two_pow_pos _
  have hn : l.toNat ≤ (its * l).toNat := by
    rw [hprod]; exact Nat.le_mul_of_pos_left _ hits
  have hin : ∀ o : UInt64, o.toNat < l.toNat → table o = nextCell l o := fun o ho =>
    (fillPointers_apply ..).trans (if_pos (mem_orbitList_nextCell hl hn ho))
  have hout : ∀ o : UInt64, l.toNat ≤ o.toNat → table o = c o := fun o ho =>
    (fillPointers_apply ..).trans (if_neg fun h => absurd (nextCell_orbit_lt hl h) (by omega))
  have hiter : ∀ n, table^[n] 0 = (nextCell l)^[n] 0 := by
    intro n
    induction n with
    | zero => rfl
    | succ n ih =>
      rw [Function.iterate_succ_apply', Function.iterate_succ_apply', ih,
        hin _ (nextCell_iterate_lt hl n)]
  have htrial : trial = (orbitList (nextCell l) (its.toNat * l.toNat) 0,
      (nextCell l)^[its.toNat * l.toNat] 0) := by
    simp only [trial, chaseLoop_eq, orbitList_eq_map_range, hiter, hdiv]
  rw [htrial]
  refine ⟨fun o ho => ?_, hout, by simp [hprod], fun x hx => count_orbitList_nextCell hl _ hx,
    fun x hx => nextCell_orbit_lt hl hx, ?_⟩
  · rw [hin o ho, nextCell_toNat hl, nextIndex, hl]
  · show (nextCell l)^[its.toNat * l.toNat] 0 = 0
    rw [Nat.mul_comm, Function.iterate_mul, Function.iterate_fixed (nextCell_single_cycle hl).2]

end Sizes

/-- `UINT64_MAX`. -/
def uint64Max : UInt64 := 18446744073709551615

/-- The five-trial minimum of `do_latency_test` and `do_seq_latency_test`:
`min = UINT64_MAX; for (p = 0; p < 5; p++) { ...; if (p > 0 && diff < min) min = diff; }`,
where `diff p` is the duration trial `p` measured. -/
def minOfTrials (diff : ℕ → UInt64) : UInt64 :=
  (List.range 5).foldl (fun min p => if 0 < p ∧ diff p < min then diff p else min) uint64Max

/-- `diff = now() - cycle` of trial `p` of a five-trial loop whose first `now()` is reading
number `start`. -/
def trialDiff (now : ℕ → UInt64) (start p : ℕ) : UInt64 :=
  now (start + 2 * p + 1) - now (start + 2 * p)

/-- `avg - base` of `do_latency_test`: readings `0..9` time the baseline trials, `10..19`
the chase trials. -/
def latencyNet (now : ℕ → UInt64) : UInt64 :=
  minOfTrials (trialDiff now 10) - minOfTrials (trialDiff now 0)

/-- `avg - base` of pass `q` of the `do { ... } while (size == 0)` loop of
`do_seq_latency_test`. -/
def seqLatencyNet (now : ℕ → UInt64) (q : ℕ) : UInt64 :=
  minOfTrials (trialDiff now (10 + 10 * q)) - minOfTrials (trialDiff now 0)

/-- The minimum over the kept trials `p = 1..4`. -/
def keptMin (d : ℕ → ℕ) : ℕ :=
  min (min (min (d 1) (d 2)) (d 3)) (d 4)

theorem uint64_toNat_sub (a b : UInt64) : (a - b).toNat = (2 ^ 64 - b.toNat + a.toNat) % 2 ^ 64 :=
  BitVec.toNat_sub ..

theorem uint64_lt_iff {a b : UInt64} : a < b ↔ a.toNat < b.toNat := Iff.rfl

theorem minOfTrials_toNat (diff : ℕ → UInt64) :
    (minOfTrials diff).toNat = keptMin fun p => (diff p).toNat := by
  have hstep : ∀ (m : UInt64) (p : ℕ), 0 < p →
      (if 0 < p ∧ diff p < m then diff p else m).toNat = min (diff p).toNat m.toNat := by
    intro m p hp
    by_cases h : diff p < m
    · rw [if_pos ⟨hp, h⟩, min_eq_left (uint64_lt_iff.mp h).le]
    · rw [if_neg (fun h' => h h'.2), min_eq_right (Nat.le_of_not_lt (mt uint64_lt_iff.mpr h))]
  have h1 : (diff 1).toNat ≤ uint64Max.toNat := Nat.le_of_lt_succ (diff 1).toNat_lt_size
  simp only [minOfTrials, List.range_succ, List.range_zero, List.nil_append, List.foldl_append,
    List.foldl_cons, List.foldl_nil, lt_irrefl, false_and, if_false]
  rw [hstep _ 4 (by decide), hstep _ 3 (by decide), hstep _ 2 (by decide),
    hstep _ 1 (by decide), min_eq_left h1, keptMin]
  omega

theorem trialDiff_toNat {now : ℕ → UInt64} (start p : ℕ)
    (hmono : (now (start + 2 * p)).toNat ≤ (now (start + 2 * p + 1)).toNat) :
    (trialDiff now start p).toNat = (now (start + 2 * p + 1)).toNat - (now (start + 2 * p)).toNat := by
  have : (now (start + 2 * p + 1)).toNat < 2 ^ 64 := (now _).toNat_lt_size
  rw [trialDiff, uint64_toNat_sub]
  omega

theorem uint64_sub_exact_iff (a b : UInt64) :
    ((a - b).toNat : ℤ) = a.toNat - b.toNat ↔ b.toNat ≤ a.toNat := by
  have ha : a.toNat < 2 ^ 64 := a.toNat_lt_size
  have hb : b.toNat < 2 ^ 64 := b.toNat_lt_size
  rw [uint64_toNat_sub]
  omega

theorem latencyNet_exact_iff (now : ℕ → UInt64) :
    ((latencyNet now).toNat : ℤ) =
        (keptMin fun p => (trialDiff now 10 p).toNat) - (keptMin fun p => (trialDiff now 0 p).toNat) ↔
      (keptMin fun p => (trialDiff now 0 p).toNat) ≤ (keptMin fun p => (trialDiff now 10 p).toNat) := by
  rw [← minOfTrials_toNat, ← minOfTrials_toNat]
  exact uint64_sub_exact_iff _ _

def slowBaseline (i : ℕ) : UInt64 :=
  UInt64.ofNat (if i < 10 then 10 * i else if i < 20 then 5 * i + 50 else 150)

theorem latencyNet_slowBaseline :
    (∀ i, (slowBaseline i).toNat ≤ (slowBaseline (i + 1)).toNat) ∧
      (keptMin fun p => (trialDiff slowBaseline 10 p).toNat) = 5 ∧
      (keptMin fun p => (trialDiff slowBaseline 0 p).toNat) = 10 ∧
      latencyNet slowBaseline = 18446744073709551611 ∧
      seqLatencyNet slowBaseline 0 = 18446744073709551611 := by
  have h : ∀ v, v < 200 → (UInt64.ofNat v).toNat = v := fun v hv =>
    UInt64.toNat_ofNat_of_lt (lt_trans hv (by decide))
  refine ⟨fun i => ?_, by decide, by decide, by decide, by decide⟩
  simp only [slowBaseline]
  split_ifs <;> (try rw [h _ (by omega), h _ (by omega)]) <;> omega

end EnzianMemory.Latency
