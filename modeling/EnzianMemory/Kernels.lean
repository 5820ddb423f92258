import Mathlib.Data.List.Count
import Mathlib.Data.List.Nodup
import Mathlib.Algebra.Group.Nat.Basic

/-!
The timed regions of `thread_write_cache_area`, `thread_clear_cache_area` and
`thread_read_cache_area`: the memory accesses one phase issues, at byte offsets into `area`.
-/

namespace EnzianMemory.Kernels

/-- `CACHELINE_SIZE`, the size of a `cacheline_float_t`. -/
def cachelineSize : ℕ := 128

/-- One access of a kernel, at a byte offset into `area`. -/
inductive Access
  /-- a 16-byte `v4f` store -/
  | store (addr : ℕ)
  /-- `dc zva` on the cell at `addr` -/
  | zero (addr : ℕ)
  /-- a 16-byte `v4f` load -/
  | load (addr : ℕ)
  /-- `__builtin_prefetch(addr, 0, locality)` -/
  | prefetch (addr locality : ℕ)
  deriving DecidableEq, Repr

def Access.isLoad : Access → Bool
  | .load _ => true
  | _ => false

/-- The bytes an access writes or reads; the zeroing `dc zva` is taken to clear the
128-byte cell it is given, and a prefetch is a hint that touches nothing. -/
def Access.Touches : Access → ℕ → Prop
  | .store x, b | .load x, b => x ≤ b ∧ b < x + 16
  | .zero x, b => x ≤ b ∧ b < x + cachelineSize
  | .prefetch _ _, _ => False

/-- `for (d = a; d < e; d++) body(d)` over `cacheline_float_t` pointers. -/
def sweep (body : ℕ → List Access) (d e : ℕ) : List Access :=
  if d < e then body d ++ sweep body (d + cachelineSize) e else []
termination_by e - d
decreasing_by simp only [cachelineSize]; omega

/-- `for (j = 0; j < itn; j++)` around a sweep. -/
def repeatSweep (body : ℕ → List Access) (a e : ℕ) : ℕ → List Access
  | 0 => []
  | j + 1 => sweep body a e ++ repeatSweep body a e j

/-- `d[0][0] = tab; ... d[0][7] = tab;` -/
def writeCell (d : ℕ) : List Access :=
  (List.range 8).map fun v => .store (d + 16 * v)

/-- `asm("dc zva, %0" : : "r" (d) : "memory");` -/
def clearCell (d : ℕ) : List Access :=
  [.zero d]

/-- `tab[0] = s[0][0]; ... tab[7] = s[0][7];` -/
def readCell (s : ℕ) : List Access :=
  (List.range 8).map fun v => .load (s + 16 * v)

/-- The globals the kernels read: `area_test_size`, `itn`, `l2_cache_size`. -/
structure Config where
  areaTestSize : ℕ
  itn : ℕ
  l2CacheSize : ℕ

/-- `a = area + (me * area_test_size)`, the product a `uint64_t` that wraps. -/
def sliceStart (cfg : Config) (me : ℕ) : ℕ :=
  me * cfg.areaTestSize % 2 ^ 64

/-- `e = area + (me * area_test_size) + area_test_size`, wrapping as well. -/
def sliceEnd (cfg : Config) (me : ℕ) : ℕ :=
  (sliceStart cfg me + cfg.areaTestSize) % 2 ^ 64

/-- The loop body `thread_read_cache_area` selects by the working-set size. -/
def readBody (cfg : Config) : ℕ → List Access :=
  if cfg.areaTestSize ≤ 32768 then readCell
  else if cfg.areaTestSize ≤ cfg.l2CacheSize then
    fun s => .prefetch (s + 4 * cachelineSize) 3 :: readCell s
  else
    fun s => .prefetch (s + 4 * cachelineSize) 3 :: .prefetch (s + 64 * cachelineSize) 2 :: readCell s

/-- The timed region of one phase of `thread_write_cache_area`. -/
def writeCacheAreaPhase (cfg : Config) (me : ℕ) : List Access :=
  repeatSweep writeCell (sliceStart cfg me) (sliceEnd cfg me) cfg.itn

/-- The timed region of one phase of `thread_clear_cache_area`. -/
def clearCacheAreaPhase (cfg : Config) (me : ℕ) : List Access :=
  repeatSweep clearCell (sliceStart cfg me) (sliceEnd cfg me) cfg.itn

/-- The timed region of one phase of `thread_read_cache_area`. -/
def readCacheAreaPhase (cfg : Config) (me : ℕ) : List Access :=
  repeatSweep (readBody cfg) (sliceStart cfg me) (sliceEnd cfg me) cfg.itn

theorem sweep_eq (body : ℕ → List Access) (a e : ℕ) :
    sweep body a e = (List.range ((e - a + 127) / 128)).flatMap fun c => body (a + 128 * c) := by
  obtain ⟨n, hn⟩ : ∃ n, (e - a + 127) / 128 = n := ⟨_, rfl⟩
  rw [hn]
  induction n generalizing a with
  | zero => rw [sweep, if_neg (by omega)]; rfl
  | succ n ih =>
    rw [sweep, if_pos (by omega), ih (a + cachelineSize) (by simp only [cachelineSize]; omega),
      List.range_succ_eq_map, List.flatMap_cons]
    simp only [List.flatMap, List.map_map, Function.comp_def, cachelineSize]
    congr 3
    funext c
    rw [Nat.mul_succ, Nat.add_right_comm, Nat.add_assoc]

theorem flatMap_vectors (mk : ℕ → Access) (a m : ℕ) :
    ((List.range m).flatMap fun c => (List.range 8).map fun v => mk (a + 128 * c + 16 * v)) =
      (List.range (8 * m)).map fun w => mk (a + 16 * w) := by
  induction m with
  | zero => rfl
  | succ m ih =>
    rw [List.range_succ, List.flatMap_append, ih, Nat.mul_succ, List.range_add, List.map_append,
      List.map_map, List.flatMap_cons, List.flatMap_nil, List.append_nil]
    congr 2
    funext v
    simp only [Function.comp_apply]
    congr 1
    omega

theorem count_strided {s : ℕ} (hs : 0 < s) {mk : ℕ → Access} (hmk : mk.Injective)
    (a N x : ℕ) : ((List.range N).map fun w => mk (a + s * w)).count (mk x) =
      if a ≤ x ∧ x < a + s * N ∧ (x - a) % s = 0 then 1 else 0 := by
  split_ifs with h
  · obtain ⟨hax, hxN, hmod⟩ := h
    have hx : x = a + s * ((x - a) / s) := by have := Nat.div_add_mod (x - a) s; omega
    have hw : (x - a) / s < N := by
      by_contra hle
      have := Nat.mul_le_mul_left s (Nat.le_of_not_lt hle)
      omega
    have hinj : Function.Injective fun w => mk (a + s * w) := fun w w' h =>
      Nat.eq_of_mul_eq_mul_left hs (Nat.add_left_cancel (hmk h))
    rw [hx, List.count_map_of_injective _ _ hinj,
      List.count_eq_one_of_mem (List.nodup_range N) (List.mem_range.mpr hw)]
  · refine List.count_eq_zero.mpr fun hmem => h ?_
    obtain ⟨w, hw, heq⟩ := List.mem_map.mp hmem
    have hx := hmk heq
    have := (Nat.mul_lt_mul_left hs).mpr (List.mem_range.mp hw)
    refine ⟨by omega, by omega, ?_⟩
    rw [← hx, Nat.add_sub_cancel_left, Nat.mul_mod_right]

theorem count_repeatSweep (body : ℕ → List Access) (a e itn : ℕ) (x : Access) :
    (repeatSweep body a e itn).count x = itn * (sweep body a e).count x := by
  induction itn with
  | zero => simp [repeatSweep]
  | succ j ih => rw [repeatSweep, List.count_append, ih, Nat.succ_mul, Nat.add_comm]

theorem mem_repeatSweep {body : ℕ → List Access} {a e itn : ℕ} {x : Access}
    (h : x ∈ repeatSweep body a e itn) : x ∈ sweep body a e := by
  induction itn with
  | zero => simp [repeatSweep] at h
  | succ j ih =>
    rcases List.mem_append.mp h with h | h
    exacts [h, ih h]

theorem filter_repeatSweep (body : ℕ → List Access) (p : Access → Bool) (a e itn : ℕ) :
    (repeatSweep body a e itn).filter p = repeatSweep (fun d => (body d).filter p) a e itn := by
  induction itn with
  | zero => rfl
  | succ j ih =>
    rw [repeatSweep, List.filter_append, ih, sweep_eq, List.filter_flatMap, repeatSweep,
      sweep_eq]

/-- Byte `x` lies in the slice `[a, e)` of worker `me`. -/
def InSlice (cfg : Config) (me x : ℕ) : Prop :=
  sliceStart cfg me ≤ x ∧ x < sliceEnd cfg me

instance (cfg : Config) (me x : ℕ) : Decidable (InSlice cfg me x) :=
  inferInstanceAs (Decidable (_ ∧ _))

theorem readBody_filter (cfg : Config) (s : ℕ) : (readBody cfg s).filter Access.isLoad = readCell s := by
  have hr : (readCell s).filter Access.isLoad = readCell s :=
    List.filter_eq_self.mpr fun a ha => by
      obtain ⟨v, -, rfl⟩ := List.mem_map.mp ha
      rfl
  unfold readBody
  split_ifs <;> simp [hr, Access.isLoad]

theorem mem_readBody {cfg : Config} {s : ℕ} {acc : Access} (h : acc ∈ readBody cfg s) :
    acc ∈ readCell s ∨ ∃ x k, acc = .prefetch x k := by
  unfold readBody at h
  split_ifs at h
  · exact .inl h
  · rcases List.mem_cons.mp h with rfl | h
    exacts [.inr ⟨_, _, rfl⟩, .inl h]
  · rcases List.mem_cons.mp h with rfl | h
    · exact .inr ⟨_, _, rfl⟩
    rcases List.mem_cons.mp h with rfl | h
    exacts [.inr ⟨_, _, rfl⟩, .inl h]

theorem readCacheAreaPhase_loads (cfg : Config) (me : ℕ) :
    (readCacheAreaPhase cfg me).filter Access.isLoad =
      repeatSweep readCell (sliceStart cfg me) (sliceEnd cfg me) cfg.itn := by
  rw [readCacheAreaPhase, filter_repeatSweep]
  simp only [readBody_filter]

section Slice

variable {cfg : Config} (h128 : cfg.areaTestSize % cachelineSize = 0) (me : ℕ)
include h128

theorem sliceStart_mod : sliceStart cfg me % 128 = 0 := by
  rw [sliceStart, Nat.mod_mod_of_dvd _ (by decide : 128 ∣ 2 ^ 64), Nat.mul_mod,
    show cfg.areaTestSize % 128 = 0 from h128, Nat.mul_zero]

theorem sliceEnd_mod : sliceEnd cfg me % 128 = 0 := by
  have ha := sliceStart_mod h128 me
  rw [sliceEnd, Nat.mod_mod_of_dvd _ (by decide : 128 ∣ 2 ^ 64)]
  simp only [cachelineSize] at h128
  omega

theorem sweep_slice (body : ℕ → List Access) :
    sweep body (sliceStart cfg me) (sliceEnd cfg me) =
      (List.range ((sliceEnd cfg me - sliceStart cfg me) / 128)).flatMap fun c =>
        body (sliceStart cfg me + 128 * c) := by
  have ha := sliceStart_mod h128 me
  have he := sliceEnd_mod h128 me
  rw [sweep_eq]
  congr 2
  omega

theorem count_vectorPhase {mk : ℕ → Access} (hmk : mk.Injective) (x : ℕ) :
    (repeatSweep (fun d => (List.range 8).map fun v => mk (d + 16 * v)) (sliceStart cfg me)
        (sliceEnd cfg me) cfg.itn).count (mk x) =
      if InSlice cfg me x ∧ x % 16 = 0 then cfg.itn else 0 := by
  have ha := sliceStart_mod h128 me
  have he := sliceEnd_mod h128 me
  have hc : sliceStart cfg me ≤ x ∧ x < sliceStart cfg me +
      16 * (8 * ((sliceEnd cfg me - sliceStart cfg me) / 128)) ∧
      (x - sliceStart cfg me) % 16 = 0 ↔ InSlice cfg me x ∧ x % 16 = 0 := by
    simp only [InSlice]; omega
  rw [count_repeatSweep, sweep_slice h128, flatMap_vectors, count_strided (by decide) hmk,
    if_congr hc rfl rfl]
  split_ifs <;> simp

theorem count_writeCacheAreaPhase (x : ℕ) : (writeCacheAreaPhase cfg me).count (.store x) =
    if InSlice cfg me x ∧ x % 16 = 0 then cfg.itn else 0 :=
  count_vectorPhase h128 me (fun _ _ h => Access.store.inj h) x

theorem count_clearCacheAreaPhase (x : ℕ) : (clearCacheAreaPhase cfg me).count (.zero x) =
    if InSlice cfg me x ∧ x % 128 = 0 then cfg.itn else 0 := by
  have ha := sliceStart_mod h128 me
  have he := sliceEnd_mod h128 me
  have hc : sliceStart cfg me ≤ x ∧ x < sliceStart cfg me +
      128 * ((sliceEnd cfg me - sliceStart cfg me) / 128) ∧
      (x - sliceStart cfg me) % 128 = 0 ↔ InSlice cfg me x ∧ x % 128 = 0 := by
    simp only [InSlice]; omega
  rw [clearCacheAreaPhase, count_repeatSweep, sweep_slice h128,
    show ((List.range _).flatMap fun c => clearCell (sliceStart cfg me + 128 * c)) = _ from
      (List.map_eq_flatMap _ _).symm,
    count_strided (by decide) fun _ _ h => Access.zero.inj h, if_congr hc rfl rfl]
  split_ifs <;> simp

theorem count_readCacheAreaPhase (x : ℕ) : (readCacheAreaPhase cfg me).count (.load x) =
    if InSlice cfg me x ∧ x % 16 = 0 then cfg.itn else 0 := by
  rw [← List.count_filter (show Access.isLoad (.load x) = true from rfl), readCacheAreaPhase_loads]
  exact count_vectorPhase h128 me (fun _ _ h => Access.load.inj h) x

theorem mem_writeCacheAreaPhase {acc : Access} (h : acc ∈ writeCacheAreaPhase cfg me) :
    ∃ w < 8 * ((sliceEnd cfg me - sliceStart cfg me) / 128),
      acc = .store (sliceStart cfg me + 16 * w) := by
  obtain ⟨w, hw, rfl⟩ := List.mem_map.mp (by
    simpa only [sweep_slice h128, writeCell, flatMap_vectors] using mem_repeatSweep h)
  exact ⟨w, List.mem_range.mp hw, rfl⟩

theorem mem_clearCacheAreaPhase {acc : Access} (h : acc ∈ clearCacheAreaPhase cfg me) :
    ∃ c < (sliceEnd cfg me - sliceStart cfg me) / 128,
      acc = .zero (sliceStart cfg me + 128 * c) := by
  obtain ⟨c, hc, rfl⟩ := List.mem_map.mp (by
    simpa only [sweep_slice h128, clearCell, ← List.map_eq_flatMap] using mem_repeatSweep h)
  exact ⟨c, List.mem_range.mp hc, rfl⟩

theorem mem_readCacheAreaPhase {acc : Access} (h : acc ∈ readCacheAreaPhase cfg me) :
    (∃ w < 8 * ((sliceEnd cfg me - sliceStart cfg me) / 128),
      acc = .load (sliceStart cfg me + 16 * w)) ∨
      ∃ x k, acc = .prefetch x k := by
  obtain ⟨c, hc, hmem⟩ := List.mem_flatMap.mp (by
    simpa only [sweep_slice h128] using mem_repeatSweep h)
  rcases mem_readBody hmem with hread | hpre
  · obtain ⟨v, hv, rfl⟩ := List.mem_map.mp hread
    simp only [List.mem_range] at hv hc
    exact .inl ⟨8 * c + v, by omega, by congr 1; omega⟩
  · exact .inr hpre

theorem touches_of_mem_phase {acc : Access}
    (h : acc ∈ writeCacheAreaPhase cfg me ∨ acc ∈ clearCacheAreaPhase cfg me ∨
      acc ∈ readCacheAreaPhase cfg me) {b : ℕ} (hb : acc.Touches b) : InSlice cfg me b := by
  have ha := sliceStart_mod h128 me
  have he := sliceEnd_mod h128 me
  simp only [InSlice]
  rcases h with h | h | h
  · obtain ⟨w, hw, rfl⟩ := mem_writeCacheAreaPhase h128 me h
    simp only [Access.Touches] at hb; omega
  · obtain ⟨c, hc, rfl⟩ := mem_clearCacheAreaPhase h128 me h
    simp only [Access.Touches, cachelineSize] at hb; omega
  · rcases mem_readCacheAreaPhase h128 me h with ⟨w, hw, rfl⟩ | ⟨x, k, rfl⟩
    · simp only [Access.Touches] at hb; omega
    · exact hb.elim

theorem touches_slice (hitn : 0 < cfg.itn) {b : ℕ} (hb : InSlice cfg me b) :
    (∃ acc ∈ writeCacheAreaPhase cfg me, acc.Touches b) ∧
      (∃ acc ∈ clearCacheAreaPhase cfg me, acc.Touches b) ∧
      ∃ acc ∈ readCacheAreaPhase cfg me, acc.Touches b := by
  have ha := sliceStart_mod h128 me
  simp only [InSlice] at hb
  have h16 : InSlice cfg me (b - b % 16) ∧ (b - b % 16) % 16 = 0 := by
    simp only [InSlice]; omega
  have h128' : InSlice cfg me (b - b % 128) ∧ (b - b % 128) % 128 = 0 := by
    simp only [InSlice]; omega
  refine ⟨⟨.store (b - b % 16), ?_, ?_⟩, ⟨.zero (b - b % 128), ?_, ?_⟩, ⟨.load (b - b % 16), ?_, ?_⟩⟩
  · rw [← List.count_pos_iff, count_writeCacheAreaPhase h128, if_pos h16]; exact hitn
  · simp only [Access.Touches]; omega
  · rw [← List.count_pos_iff, count_clearCacheAreaPhase h128, if_pos h128']; exact hitn
  · simp only [Access.Touches, cachelineSize]; omega
  · rw [← List.count_pos_iff, count_readCacheAreaPhase h128, if_pos h16]; exact hitn
  · simp only [Access.Touches]; omega

end Slice

theorem inSlice_of_lt {cfg : Config} {me b : ℕ} (h : (me + 1) * cfg.areaTestSize < 2 ^ 64) :
    InSlice cfg me b ↔ me * cfg.areaTestSize ≤ b ∧ b < (me + 1) * cfg.areaTestSize := by
  rw [Nat.succ_mul] at h ⊢
  rw [InSlice, sliceEnd, sliceStart, Nat.mod_eq_of_lt (by omega), Nat.mod_eq_of_lt h]

theorem exists_inSlice_iff {cfg : Config} (hS : 0 < cfg.areaTestSize) {first last : ℕ}
    (hlast : (last + 1) * cfg.areaTestSize < 2 ^ 64) (b : ℕ) :
    (∃ me, first ≤ me ∧ me ≤ last ∧ InSlice cfg me b) ↔
      first * cfg.areaTestSize ≤ b ∧ b < (last + 1) * cfg.areaTestSize := by
  have hle : ∀ {me}, me ≤ last → (me + 1) * cfg.areaTestSize < 2 ^ 64 := fun h =>
    lt_of_le_of_lt (Nat.mul_le_mul_right _ (Nat.add_le_add_right h 1)) hlast
  constructor
  · rintro ⟨me, h1, h2, hin⟩
    rw [inSlice_of_lt (hle h2)] at hin
    have := Nat.mul_le_mul_right cfg.areaTestSize h1
    have := Nat.mul_le_mul_right cfg.areaTestSize (Nat.add_le_add_right h2 1)
    omega
  · rintro ⟨h1, h2⟩
    have hme : b / cfg.areaTestSize ≤ last :=
      Nat.lt_succ_iff.mp ((Nat.div_lt_iff_lt_mul hS).mpr h2)
    exact ⟨b / cfg.areaTestSize, (Nat.le_div_iff_mul_le hS).mpr h1, hme,
      (inSlice_of_lt (hle hme)).2 ⟨Nat.div_mul_le_self _ _, (Nat.succ_mul _ _).symm ▸ Nat.lt_div_mul_add hS⟩⟩

end EnzianMemory.Kernels
