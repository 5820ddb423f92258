import Mathlib.Dynamics.PeriodicPts
import Mathlib.Data.List.Count
import Mathlib.Tactic.Ring

/-!
The successor map that `do_latency_test` stores in its permutation table,
`o ↦ (o * 13 + 7) & (l - 1)` on `uint64_t`, and the full-period argument for
every power of two `l` (13 ≡ 1 mod 4, 7 odd).
-/

namespace EnzianMemory.Latency

/-- The value `do_latency_test` stores in cell `o`: `(o * 13 + 7) & (l - 1)`. -/
def nextCell (l o : UInt64) : UInt64 :=
  (o * 13 + 7) &&& (l - 1)

/-- The recurrence on indices modulo `2 ^ k`. -/
def nextIndex (k x : ℕ) : ℕ :=
  (13 * x + 7) % 2 ^ k

/-- The first `n` points of the orbit of `x`: `[x, f x, ..., f^[n-1] x]`. -/
def orbitList {α : Type} (f : α → α) : ℕ → α → List α
  | 0, _ => []
  | n + 1, x => x :: orbitList f n (f x)

/-- `orbitSum n = 1 + 13 + ... + 13 ^ (n - 1)`. -/
def orbitSum : ℕ → ℕ
  | 0 => 0
  | n + 1 => 13 * orbitSum n + 1

section Orbit

variable {α : Type} (f : α → α)

@[simp]
theorem orbitList_length (n : ℕ) (x : α) : (orbitList f n x).length = n := by
  induction n generalizing x <;> simp [orbitList, *]

theorem orbitList_add (a b : ℕ) (x : α) :
    orbitList f (a + b) x = orbitList f a x ++ orbitList f b (f^[a] x) := by
  induction a generalizing x with
  | zero => simp [orbitList]
  | succ a ih => rw [Nat.add_right_comm, orbitList, ih, orbitList]; rfl

theorem mem_orbitList {n : ℕ} {x y : α} : y ∈ orbitList f n x ↔ ∃ j < n, f^[j] x = y := by
  induction n generalizing x with
  | zero => simp [orbitList]
  | succ n ih =>
    simp only [orbitList, List.mem_cons, ih]
    constructor
    · rintro (rfl | ⟨j, hj, rfl⟩)
      exacts [⟨0, n.succ_pos, rfl⟩, ⟨j + 1, by omega, rfl⟩]
    · rintro ⟨_ | j, hj, rfl⟩
      exacts [.inl rfl, .inr ⟨j, by omega, rfl⟩]

theorem orbitList_map {β : Type} {g : α → β} {h : β → β} (hg : ∀ y, g (f y) = h (g y))
    (n : ℕ) (x : α) : (orbitList f n x).map g = orbitList h n (g x) := by
  induction n generalizing x <;> simp [orbitList, hg, *]

theorem iterate_map {β : Type} {g : α → β} {h : β → β} (hg : ∀ y, g (f y) = h (g y))
    (n : ℕ) (x : α) : g (f^[n] x) = h^[n] (g x) := by
  induction n generalizing x <;> simp [hg, *]

theorem orbitList_eq_map_range (n : ℕ) (x : α) :
    orbitList f n x = (List.range n).map (f^[·] x) := by
  induction n generalizing x with
  | zero => rfl
  | succ n ih => rw [orbitList, ih, List.range_succ_eq_map, List.map_cons, List.map_map]; rfl

theorem orbitList_nodup {n : ℕ} {x : α} (hn : n ≤ Function.minimalPeriod f x) :
    (orbitList f n x).Nodup := by
  rw [orbitList_eq_map_range]
  refine (List.nodup_range n).map_on fun a ha b hb h => ?_
  rw [List.mem_range] at ha hb
  exact Function.iterate_injOn_Iio_minimalPeriod (Set.mem_Iio.mpr (by omega))
    (Set.mem_Iio.mpr (by omega)) h

theorem count_orbitList_mul [DecidableEq α] {p : ℕ} {x : α} (hp : f^[p] x = x) (m : ℕ) (y : α) :
    (orbitList f (m * p) x).count y = m * (orbitList f p x).count y := by
  induction m with
  | zero => simp [orbitList]
  | succ m ih =>
    rw [Nat.succ_mul, orbitList_add, List.count_append, ih, Nat.mul_comm m p, Function.iterate_mul,
      Function.iterate_fixed hp, Nat.succ_mul]

end Orbit

theorem nextCell_toNat {l : UInt64} {k : ℕ} (hl : l.toNat = 2 ^ k) (o : UInt64) :
    (nextCell l o).toNat = nextIndex k o.toNat := by
  have hlt : 2 ^ k < 2 ^ 64 := hl ▸ l.toNat_lt_size
  have hd : 2 ^ k ∣ 2 ^ 64 :=
    Nat.pow_dvd_pow 2 ((Nat.pow_lt_pow_iff_right (by decide : 1 < 2)).mp hlt).le
  have hsub : (l - 1).toNat = 2 ^ k - 1 := by
    change BitVec.toNat (l.toBitVec - 1) = _
    rw [BitVec.toNat_sub]
    change (2 ^ 64 - 1 + l.toNat) % 2 ^ 64 = _
    have := Nat.two_pow_pos k
    rw [hl]; omega
  have hadd : (o * 13 + 7).toNat = (o.toNat * 13 % 2 ^ 64 + 7) % 2 ^ 64 := by
    change BitVec.toNat (o.toBitVec * 13 + 7) = _
    rw [BitVec.toNat_add, BitVec.toNat_mul]; rfl
  rw [nextCell, UInt64.and_toNat, hsub, hadd, Nat.and_pow_two_sub_one_eq_mod,
    Nat.mod_mod_of_dvd _ hd, nextIndex, Nat.add_mod, Nat.mod_mod_of_dvd _ hd, ← Nat.add_mod,
    Nat.mul_comm]

theorem orbitSum_add (a b : ℕ) : orbitSum (a + b) = 13 ^ b * orbitSum a + orbitSum b := by
  induction b with
  | zero => simp [orbitSum]
  | succ b ih => rw [← Nat.add_assoc, orbitSum, ih, orbitSum, pow_succ]; ring

theorem orbitSum_two_pow (j : ℕ) : ∃ u, orbitSum (2 ^ j) = 2 ^ j * u ∧ u % 2 = 1 := by
  induction j with
  | zero => exact ⟨1, rfl, rfl⟩
  | succ j ih =>
    obtain ⟨u, hu, hodd⟩ := ih
    obtain ⟨w, hw, hwodd⟩ : ∃ w, 13 ^ 2 ^ j + 1 = 2 * w ∧ w % 2 = 1 := by
      have h4 : 13 ^ 2 ^ j % 4 = 1 := by rw [Nat.pow_mod]; simp
      exact ⟨(13 ^ 2 ^ j + 1) / 2, by omega, by omega⟩
    refine ⟨u * w, ?_, by rw [Nat.mul_mod, hodd, hwodd]⟩
    rw [pow_succ, Nat.mul_two, orbitSum_add, hu, ← Nat.add_one_mul, hw]
    ring

theorem nextIndex_iterate (k n : ℕ) : (nextIndex k)^[n] 0 = 7 * orbitSum n % 2 ^ k := by
  induction n with
  | zero => simp [orbitSum]
  | succ n ih =>
    rw [Function.iterate_succ_apply', ih, nextIndex, orbitSum, Nat.add_mod, Nat.mul_mod,
      Nat.mod_mod, ← Nat.mul_mod, ← Nat.add_mod]
    ring_nf

theorem nextIndex_periodic (k : ℕ) : Function.IsPeriodicPt (nextIndex k) (2 ^ k) 0 := by
  obtain ⟨u, hu, -⟩ := orbitSum_two_pow k
  show (nextIndex k)^[2 ^ k] 0 = 0
  rw [nextIndex_iterate, hu, Nat.mul_left_comm, Nat.mul_mod_right]

theorem nextIndex_not_periodic (k : ℕ) :
    ¬ Function.IsPeriodicPt (nextIndex (k + 1)) (2 ^ k) 0 := by
  obtain ⟨u, hu, hodd⟩ := orbitSum_two_pow k
  intro h
  change (nextIndex (k + 1))^[2 ^ k] 0 = 0 at h
  rw [nextIndex_iterate, hu, Nat.mul_left_comm, pow_succ, Nat.mul_mod_mul_left, Nat.mul_mod,
    hodd] at h
  simp at h

theorem minimalPeriod_nextIndex (k : ℕ) : Function.minimalPeriod (nextIndex k) 0 = 2 ^ k := by
  cases k with
  | zero => exact Function.minimalPeriod_eq_one_iff_isFixedPt.mpr (nextIndex_periodic 0)
  | succ k =>
    haveI : Fact (Nat.Prime 2) := ⟨Nat.prime_two⟩
    exact Function.minimalPeriod_eq_prime_pow (nextIndex_not_periodic k) (nextIndex_periodic _)

theorem orbitList_nextIndex_perm (k : ℕ) :
    (orbitList (nextIndex k) (2 ^ k) 0).Perm (List.range (2 ^ k)) := by
  refine (List.subperm_of_subset (orbitList_nodup _ (minimalPeriod_nextIndex k).ge) ?_
    ).perm_of_length_le (by simp)
  intro y hy
  obtain ⟨j, -, rfl⟩ := (mem_orbitList _).mp hy
  rw [List.mem_range, nextIndex_iterate]
  exact Nat.mod_lt _ (Nat.two_pow_pos k)

section Cells

variable {l : UInt64} {k : ℕ}

theorem nextCell_orbit_toNat (hl : l.toNat = 2 ^ k) (n : ℕ) :
    (orbitList (nextCell l) n 0).map UInt64.toNat = orbitList (nextIndex k) n 0 :=
  orbitList_map _ (nextCell_toNat hl) n 0

theorem nextCell_iterate_toNat (hl : l.toNat = 2 ^ k) (n : ℕ) :
    ((nextCell l)^[n] 0).toNat = (nextIndex k)^[n] 0 :=
  iterate_map _ (nextCell_toNat hl) n 0

theorem nextCell_single_cycle (hl : l.toNat = 2 ^ k) :
    ((orbitList (nextCell l) l.toNat 0).map UInt64.toNat).Perm (List.range l.toNat) ∧
      (nextCell l)^[l.toNat] 0 = 0 := by
  refine ⟨?_, UInt64.toNat.inj ?_⟩
  · rw [nextCell_orbit_toNat hl, hl]
    exact orbitList_nextIndex_perm k
  · rw [nextCell_iterate_toNat hl, hl]
    exact nextIndex_periodic k

theorem nextCell_iterate_lt (hl : l.toNat = 2 ^ k) (n : ℕ) :
    ((nextCell l)^[n] 0).toNat < l.toNat := by
  rw [nextCell_iterate_toNat hl, nextIndex_iterate, hl]
  exact Nat.mod_lt _ (Nat.two_pow_pos k)

theorem nextCell_orbit_lt (hl : l.toNat = 2 ^ k) {n : ℕ} {y : UInt64}
    (hy : y ∈ orbitList (nextCell l) n 0) : y.toNat < l.toNat := by
  obtain ⟨j, -, rfl⟩ := (mem_orbitList _).mp hy
  exact nextCell_iterate_lt hl j

theorem mem_orbitList_nextCell (hl : l.toNat = 2 ^ k) {n : ℕ} (hn : l.toNat ≤ n) {x : UInt64}
    (hx : x.toNat < l.toNat) : x ∈ orbitList (nextCell l) n 0 := by
  obtain ⟨y, hy, hyx⟩ :=
    List.mem_map.mp ((nextCell_single_cycle hl).1.mem_iff.mpr (List.mem_range.mpr hx))
  rw [← Nat.add_sub_cancel' hn, orbitList_add]
  exact List.mem_append_left _ (UInt64.toNat.inj hyx ▸ hy)

theorem count_orbitList_nextCell (hl : l.toNat = 2 ^ k) (m : ℕ) {x : UInt64}
    (hx : x.toNat < l.toNat) : (orbitList (nextCell l) (m * l.toNat) 0).count x = m := by
  obtain ⟨hperm, hback⟩ := nextCell_single_cycle hl
  rw [count_orbitList_mul _ hback, List.count_eq_one_of_mem (hperm.nodup_iff.mpr
    (List.nodup_range _)).of_map, Nat.mul_one]
  obtain ⟨y, hy, hyx⟩ := List.mem_map.mp (hperm.mem_iff.mpr (List.mem_range.mpr hx))
  exact UInt64.toNat.inj hyx ▸ hy

end Cells

end EnzianMemory.Latency
