import Mathlib.Data.Nat.Bitwise
import Mathlib.Data.UInt
import Mathlib.Logic.Relation

/-!
The arena of `redis_fpga.c`. `SetupEnzianMemoryMapping` points `gArenaBase`, `gArenaCur` and
`gArenaEnd` at the mapped device memory, and `fpga_alloc` rounds `gArenaCur` up to 64 bytes and
bumps it past each block. Pointers and sizes are `uintptr_t` and `size_t`, 64 bits wide, and
every sum wraps.
-/

namespace EnzianMemory.Redis

structure Arena where
  gArenaBase : UInt64
  gArenaCur : UInt64
  gArenaEnd : UInt64
  deriving DecidableEq, Repr

/-- The three globals before any mapping: `NULL`. -/
def Arena.null : Arena :=
  ⟨0, 0, 0⟩

/-- `mapping` is the address `mmap` returned, or `none` when `open` or `mmap` failed and the
program goes on with the heap. The loop touching one byte per 4 MiB changes no global. -/
def setupEnzianMemoryMapping (mapping : Option UInt64) (mapBytes : UInt64) (a : Arena) : Arena :=
  match mapping with
  | none => a
  | some addr => ⟨addr, addr, addr + mapBytes⟩

/-- `malloc n` is the block the heap hands out, `0` for `NULL`; `none` is `exit(1)`. -/
def fpgaAlloc (malloc : UInt64 → UInt64) (a : Arena) (n : UInt64) : Option (UInt64 × Arena) :=
  if a.gArenaBase = 0 then
    let p := malloc n
    if p = 0 then none else some (p, a)
  else
    let ALIGN : UInt64 := 64
    let aligned := (a.gArenaCur + (ALIGN - 1)) &&& ~~~(ALIGN - 1)
    if aligned + n > a.gArenaEnd then none
    else some (aligned, { a with gArenaCur := aligned + n })

/-- The arena and, as ghost state, the blocks `fpga_alloc` returned (pointer, size), oldest
first. -/
structure Run where
  arena : Arena
  blocks : List (UInt64 × UInt64)

/-- A call `fpga_alloc(n)` that returns. -/
def Step (malloc : UInt64 → UInt64) (n : UInt64) (r r' : Run) : Prop :=
  ∃ p a, fpgaAlloc malloc r.arena n = some (p, a) ∧ r' = ⟨a, r.blocks ++ [(p, n)]⟩

theorem land_mask_eq {x : ℕ} (hx : x < 2 ^ 64) : x &&& (2 ^ 64 - 64) = x / 64 * 64 := by
  apply Nat.eq_of_testBit_eq
  intro i
  have hx6 : x / 64 * 64 = x >>> 6 <<< 6 := by
    simp [Nat.shiftLeft_eq, Nat.shiftRight_eq_div_pow]
  rw [hx6, show (2 ^ 64 - 64 : ℕ) = (2 ^ 58 - 1) <<< 6 from rfl, Nat.testBit_and,
    Nat.testBit_shiftLeft, Nat.testBit_shiftLeft, Nat.testBit_shiftRight,
    Nat.testBit_two_pow_sub_one]
  by_cases hi : 6 ≤ i
  · rw [Nat.add_sub_cancel' hi]
    by_cases h64 : i < 64
    · simp [hi, show i - 6 < 58 by omega]
    · have hbit : x.testBit i = false :=
        Nat.testBit_eq_false_of_lt (lt_of_lt_of_le hx (Nat.pow_le_pow_right (by decide) (by omega)))
      simp [hbit]
  · simp [hi]

theorem toNat_add_of_lt {x y : UInt64} (h : x.toNat + y.toNat < 2 ^ 64) :
    (x + y).toNat = x.toNat + y.toNat :=
  (BitVec.toNat_add ..).trans (Nat.mod_eq_of_lt h)

theorem aligned_toNat {x : UInt64} (hx : x.toNat + 63 < 2 ^ 64) :
    ((x + (64 - 1)) &&& ~~~(64 - 1)).toNat = (x.toNat + 63) / 64 * 64 := by
  rw [UInt64.and_toNat, show (~~~(64 - 1 : UInt64)).toNat = 2 ^ 64 - 64 from rfl,
    toNat_add_of_lt hx]
  exact land_mask_eq hx

theorem fpgaAlloc_of_base {malloc : UInt64 → UInt64} {a a' : Arena} {n p : UInt64}
    (hb : a.gArenaBase ≠ 0) (hc : a.gArenaCur.toNat < 2 ^ 63) (hn : n.toNat < 2 ^ 63)
    (h : fpgaAlloc malloc a n = some (p, a')) :
    p.toNat = (a.gArenaCur.toNat + 63) / 64 * 64 ∧ p.toNat + n.toNat ≤ a.gArenaEnd.toNat ∧
      a' = { a with gArenaCur := p + n } ∧ (p + n).toNat = p.toNat + n.toNat := by
  have hp := aligned_toNat (x := a.gArenaCur) (by omega)
  have hsum := toNat_add_of_lt (x := (a.gArenaCur + (64 - 1)) &&& ~~~(64 - 1)) (y := n)
    (by omega)
  simp only [fpgaAlloc, hb, if_false, gt_iff_lt] at h
  split_ifs at h with hgt
  cases h
  exact ⟨hp, by rw [← hsum]; exact Nat.not_lt.1 hgt, rfl, hsum⟩

/-- The arena `[base, e)` as `SetupEnzianMemoryMapping` left it, below `2^63`, with the cursor
inside it and every block returned so far 64-byte aligned and below the cursor. -/
structure Run.Inv (base e : ℕ) (r : Run) : Prop where
  base_eq : r.arena.gArenaBase.toNat = base
  base_pos : 0 < base
  end_eq : r.arena.gArenaEnd.toNat = e
  end_lt : e < 2 ^ 63
  cur_ge : base ≤ r.arena.gArenaCur.toNat
  cur_le : r.arena.gArenaCur.toNat ≤ e
  blocks : ∀ q m, (q, m) ∈ r.blocks →
    q.toNat % 64 = 0 ∧ base ≤ q.toNat ∧ q.toNat + m.toNat ≤ r.arena.gArenaCur.toNat

section Inv

variable {base e : ℕ} {malloc : UInt64 → UInt64} {r : Run} {n : UInt64}

theorem Run.Inv.base_ne (hs : r.Inv base e) : r.arena.gArenaBase ≠ 0 := fun h0 => by
  have := hs.base_eq
  rw [h0] at this
  exact absurd this (Nat.ne_of_lt hs.base_pos)

theorem Run.Inv.alloc (hs : r.Inv base e) (hn : n.toNat < 2 ^ 63) {p : UInt64} {a : Arena}
    (h : fpgaAlloc malloc r.arena n = some (p, a)) :
    p.toNat % 64 = 0 ∧ base ≤ p.toNat ∧ p.toNat + n.toNat ≤ e ∧
      (∀ q m, (q, m) ∈ r.blocks → q.toNat + m.toNat ≤ p.toNat) ∧
      r.arena.gArenaCur.toNat ≤ a.gArenaCur.toNat ∧ a.gArenaCur.toNat = p.toNat + n.toNat ∧
      a.gArenaBase = r.arena.gArenaBase ∧ a.gArenaEnd = r.arena.gArenaEnd := by
  obtain ⟨hp, hle, rfl, hsum⟩ :=
    fpgaAlloc_of_base hs.base_ne (by have := hs.cur_le; have := hs.end_lt; omega) hn h
  have hc := hs.cur_ge
  refine ⟨by omega, by omega, by rw [← hs.end_eq]; exact hle, fun q m hqm => ?_, by
    simp only [hsum]; omega, hsum, rfl, rfl⟩
  have := (hs.blocks q m hqm).2.2
  omega

theorem Run.Inv.step (hs : r.Inv base e) (hn : n.toNat < 2 ^ 63) {r' : Run}
    (h : Step malloc n r r') : r'.Inv base e := by
  obtain ⟨p, a, h, rfl⟩ := h
  obtain ⟨hal, hpb, hpe, -, hcur, hcur', hb, he⟩ := hs.alloc hn h
  refine ⟨hb ▸ hs.base_eq, hs.base_pos, he ▸ hs.end_eq, hs.end_lt, by dsimp only; omega,
    by dsimp only; omega, fun q m hqm => ?_⟩
  dsimp only at hqm ⊢
  rcases List.mem_append.1 hqm with hqm | hqm
  · have := hs.blocks q m hqm
    exact ⟨this.1, this.2.1, by omega⟩
  · obtain ⟨rfl, rfl⟩ := Prod.mk.inj (List.mem_singleton.1 hqm)
    exact ⟨hal, hpb, by omega⟩

end Inv

theorem setup_inv {addr mapBytes : UInt64} (h0 : addr ≠ 0)
    (hmap : addr.toNat + mapBytes.toNat < 2 ^ 63) (a₀ : Arena) :
    Run.Inv addr.toNat (addr.toNat + mapBytes.toNat)
      ⟨setupEnzianMemoryMapping (some addr) mapBytes a₀, []⟩ :=
  ⟨rfl, Nat.pos_of_ne_zero fun h => h0 (UInt64.toNat.inj h), toNat_add_of_lt (by omega), hmap,
    le_rfl, Nat.le_add_right _ _, fun _ _ h => absurd h (List.not_mem_nil _)⟩

theorem fpga_alloc_blocks {malloc : UInt64 → UInt64} {addr mapBytes : UInt64} (h0 : addr ≠ 0)
    (hmap : addr.toNat + mapBytes.toNat < 2 ^ 63) (a₀ : Arena) {r : Run}
    (hr : Relation.ReflTransGen
      (fun r r' => ∃ n : UInt64, n.toNat < 2 ^ 63 ∧ Step malloc n r r')
      ⟨setupEnzianMemoryMapping (some addr) mapBytes a₀, []⟩ r)
    (n : UInt64) (hn : n.toNat < 2 ^ 63) :
    (addr.toNat ≤ r.arena.gArenaCur.toNat ∧
      r.arena.gArenaCur.toNat ≤ addr.toNat + mapBytes.toNat) ∧
    (fpgaAlloc malloc r.arena n = none ∨
      ∃ p a, fpgaAlloc malloc r.arena n = some (p, a) ∧ p.toNat % 64 = 0 ∧
        addr.toNat ≤ p.toNat ∧ p.toNat + n.toNat ≤ addr.toNat + mapBytes.toNat ∧
        (∀ q m, (q, m) ∈ r.blocks → q.toNat + m.toNat ≤ p.toNat) ∧
        r.arena.gArenaCur.toNat ≤ a.gArenaCur.toNat) := by
  have hs : r.Inv addr.toNat (addr.toNat + mapBytes.toNat) := by
    induction hr with
    | refl => exact setup_inv h0 hmap a₀
    | tail _ hst ih => obtain ⟨n, hn, hst⟩ := hst; exact ih.step hn hst
  refine ⟨⟨hs.cur_ge, hs.cur_le⟩, ?_⟩
  rcases hcall : fpgaAlloc malloc r.arena n with _ | ⟨p, a⟩
  · exact .inl rfl
  · obtain ⟨hal, hpb, hpe, hdis, hcur, -⟩ := hs.alloc hn hcall
    exact .inr ⟨p, a, rfl, hal, hpb, hpe, hdis, hcur⟩

theorem fpga_alloc_blocks_first :
    ∃ p a, fpgaAlloc (fun _ => 0) (setupEnzianMemoryMapping (some 4096) 4096 Arena.null) 64 =
      some (p, a) ∧ p.toNat % 64 = 0 ∧ 4096 ≤ p.toNat ∧ p.toNat + 64 ≤ 4096 + 4096 := by
  rcases (@fpga_alloc_blocks (fun _ => 0) 4096 4096 (by decide) (by decide) Arena.null _ .refl 64
    (by decide)).2 with h | ⟨p, a, h, hal, hpb, hpe, -, -⟩
  · exact absurd h (by decide)
  · exact ⟨p, a, h, hal, hpb, hpe⟩

theorem fpga_alloc_full_or_wrapped :
    (∃ p a, fpgaAlloc (fun _ => 0) (setupEnzianMemoryMapping (some 4096) 4096 Arena.null) 4096 =
        some (p, a) ∧ a.gArenaCur = a.gArenaEnd) ∧
      ∃ p a, fpgaAlloc (fun _ => 0) (setupEnzianMemoryMapping (some (2 ^ 40)) (2 ^ 32) Arena.null)
          (UInt64.ofNat (2 ^ 64 - 2 ^ 40)) = some (p, a) ∧
        a.gArenaEnd.toNat < p.toNat + (2 ^ 64 - 2 ^ 40) ∧ a.gArenaCur < a.gArenaBase :=
  ⟨⟨_, _, rfl, rfl⟩, ⟨_, _, rfl, by decide, by decide⟩⟩

end EnzianMemory.Redis
