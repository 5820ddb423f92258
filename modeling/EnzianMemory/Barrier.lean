import Mathlib.Data.Fintype.Option
import Mathlib.Data.Fintype.Card

/-!
A reusable barrier of `n + 1` parties (`none` and `some i` for `i : Fin n`), as
`pthread_barrier_wait` behaves: the arrival that completes a generation opens the next one
and returns at once, the others block until the generation has changed. `waits p` counts the
waits party `p` has entered and `arrivals` logs who arrived in which generation.
-/

namespace EnzianMemory

@[ext]
structure Barrier (n : ℕ) where
  waits : Option (Fin n) → ℕ
  blockedIn : Option (Fin n) → Option ℕ
  count : ℕ
  gen : ℕ
  arrivals : List (Option (Fin n) × ℕ)

namespace Barrier

variable {n : ℕ}

/-- `pthread_barrier_init` for `n + 1` parties. -/
def init (n : ℕ) : Barrier n :=
  ⟨fun _ => 0, fun _ => none, 0, 0, []⟩

def arrive (b : Barrier n) (p : Option (Fin n)) : Barrier n :=
  if b.count + 1 = n + 1 then
    { b with waits := Function.update b.waits p (b.waits p + 1), count := 0, gen := b.gen + 1,
             arrivals := b.arrivals ++ [(p, b.gen)] }
  else
    { b with waits := Function.update b.waits p (b.waits p + 1),
             blockedIn := Function.update b.blockedIn p (some b.gen), count := b.count + 1,
             arrivals := b.arrivals ++ [(p, b.gen)] }

inductive Step : Barrier n → Barrier n → Prop
  | arrive (b : Barrier n) (p : Option (Fin n)) : b.blockedIn p = none → Step b (b.arrive p)
  | leave (b : Barrier n) (p : Option (Fin n)) (g : ℕ) : b.blockedIn p = some g → g < b.gen →
      Step b { b with blockedIn := Function.update b.blockedIn p none }
  | skip (b : Barrier n) : Step b b

def ahead (b : Barrier n) : Finset (Option (Fin n)) :=
  Finset.univ.filter fun p => b.waits p = b.gen + 1

structure Inv (b : Barrier n) : Prop where
  waits_ge : ∀ p, b.gen ≤ b.waits p
  waits_le : ∀ p, b.waits p ≤ b.gen + 1
  ahead_blocked : ∀ p, b.waits p = b.gen + 1 → b.blockedIn p = some b.gen
  blocked_waits : ∀ p g, b.blockedIn p = some g → b.waits p = g + 1
  count_eq : b.count = b.ahead.card
  count_le : b.count ≤ n
  arrivals_count : ∀ p g, b.arrivals.count (p, g) = if g < b.waits p then 1 else 0

theorem Inv.waits_of_unblocked {b : Barrier n} (h : b.Inv) {p : Option (Fin n)}
    (hp : b.blockedIn p = none) : b.waits p = b.gen := by
  have := h.waits_ge p
  have := h.waits_le p
  by_contra hne
  have := h.ahead_blocked p (by omega)
  simp_all

@[simp] theorem arrive_waits (b : Barrier n) (p : Option (Fin n)) :
    (b.arrive p).waits = Function.update b.waits p (b.waits p + 1) := by
  unfold arrive; split <;> rfl

@[simp] theorem arrive_arrivals (b : Barrier n) (p : Option (Fin n)) :
    (b.arrive p).arrivals = b.arrivals ++ [(p, b.gen)] := by
  unfold arrive; split <;> rfl

theorem arrive_of_full {b : Barrier n} (h : b.count + 1 = n + 1) (p : Option (Fin n)) :
    (b.arrive p).blockedIn = b.blockedIn ∧ (b.arrive p).count = 0 ∧ (b.arrive p).gen = b.gen + 1 := by
  simp [arrive, h]

theorem arrive_of_not_full {b : Barrier n} (h : b.count + 1 ≠ n + 1) (p : Option (Fin n)) :
    (b.arrive p).blockedIn = Function.update b.blockedIn p (some b.gen) ∧
      (b.arrive p).count = b.count + 1 ∧ (b.arrive p).gen = b.gen := by
  simp [arrive, h]

theorem Inv.arrivals_update {b : Barrier n} (h : b.Inv) {p : Option (Fin n)}
    (hp : b.waits p = b.gen) (q : Option (Fin n)) (g : ℕ) :
    (b.arrivals ++ [(p, b.gen)]).count (q, g) =
      if g < Function.update b.waits p (b.waits p + 1) q then 1 else 0 := by
  rw [List.count_append, h.arrivals_count]
  by_cases hq : q = p
  · subst hq
    by_cases hg : g = b.gen <;> simp [hg, hp]; split_ifs <;> omega
  · simp [hq, Function.update_noteq hq, Ne.symm hq]

theorem Inv.ahead_of_full {b : Barrier n} (h : b.Inv) (hfull : b.count + 1 = n + 1)
    {p : Option (Fin n)} (hp : b.waits p = b.gen) {q : Option (Fin n)} (hq : q ≠ p) :
    b.waits q = b.gen + 1 := by
  have hsub : b.ahead ⊆ Finset.univ.erase p := fun r hr => by
    simp only [ahead, Finset.mem_filter] at hr
    exact Finset.mem_erase.mpr ⟨fun h' => by subst h'; omega, Finset.mem_univ r⟩
  have hcard : (Finset.univ.erase p).card ≤ b.ahead.card := by
    rw [Finset.card_erase_of_mem (Finset.mem_univ p), Finset.card_univ, Fintype.card_option,
      Fintype.card_fin, ← h.count_eq]
    omega
  have := Finset.eq_of_subset_of_card_le hsub hcard ▸ Finset.mem_erase.mpr ⟨hq, Finset.mem_univ q⟩
  simpa [ahead] using this

theorem Inv.arrive_full {b : Barrier n} (h : b.Inv) {p : Option (Fin n)}
    (hp : b.blockedIn p = none) (hfull : b.count + 1 = n + 1) : (b.arrive p).Inv := by
  have hw := h.waits_of_unblocked hp
  obtain ⟨hb, hc, hg⟩ := arrive_of_full hfull p
  have hall : ∀ q, (b.arrive p).waits q = (b.arrive p).gen := fun q => by
    rw [arrive_waits, hg]
    by_cases hq : q = p
    · subst hq; simp [hw]
    · rw [Function.update_noteq hq, h.ahead_of_full hfull hw hq]
  refine ⟨fun q => (hall q).ge, fun q => by rw [hall]; omega, fun q hq => by have := hall q; omega,
    fun q g hq => ?_, ?_, by rw [hc]; exact Nat.zero_le _, fun q g => by rw [arrive_arrivals, h.arrivals_update hw,
      arrive_waits]⟩
  · rw [hb] at hq
    have hqp : q ≠ p := fun e => by subst e; simp [hp] at hq
    rw [arrive_waits, Function.update_noteq hqp]; exact h.blocked_waits q g hq
  · have : (b.arrive p).ahead = ∅ := by simp [ahead, hall]
    rw [this, hc]; rfl

theorem Inv.arrive_not_full {b : Barrier n} (h : b.Inv) {p : Option (Fin n)}
    (hp : b.blockedIn p = none) (hfull : b.count + 1 ≠ n + 1) : (b.arrive p).Inv := by
  have hw := h.waits_of_unblocked hp
  obtain ⟨hb, hc, hg⟩ := arrive_of_not_full hfull p
  have hahead : (b.arrive p).ahead = insert p b.ahead := by
    ext q
    by_cases hq : q = p
    · subst hq; simp [ahead, hg, hw]
    · simp [ahead, hg, Function.update_noteq hq, hq]
  have hnot : p ∉ b.ahead := by simp [ahead, hw]
  refine ⟨fun q => ?_, fun q => ?_, fun q hq => ?_, fun q g hq => ?_, ?_, ?_,
    fun q g => by rw [arrive_arrivals, h.arrivals_update hw, arrive_waits]⟩
  · by_cases hq : q = p
    · subst hq; simp [hg, hw]
    · rw [arrive_waits, Function.update_noteq hq, hg]; exact h.waits_ge q
  · by_cases hq : q = p
    · subst hq; simp [hg, hw]
    · rw [arrive_waits, Function.update_noteq hq, hg]; exact h.waits_le q
  · rw [hb, hg]
    by_cases hqp : q = p
    · subst hqp; simp
    · rw [arrive_waits, Function.update_noteq hqp, hg] at hq
      rw [Function.update_noteq hqp]; exact h.ahead_blocked q hq
  · rw [hb] at hq
    rw [arrive_waits]
    by_cases hqp : q = p
    · subst hqp; simp at hq; simp [← hq, hw]
    · rw [Function.update_noteq hqp] at hq ⊢; exact h.blocked_waits q g hq
  · rw [hahead, Finset.card_insert_of_not_mem hnot, ← h.count_eq, hc]
  · have := h.count_le; omega

theorem Inv.arrive {b : Barrier n} (h : b.Inv) {p : Option (Fin n)} (hp : b.blockedIn p = none) :
    (b.arrive p).Inv := by
  by_cases hfull : b.count + 1 = n + 1
  exacts [h.arrive_full hp hfull, h.arrive_not_full hp hfull]

theorem Inv.leave {b : Barrier n} (h : b.Inv) {p : Option (Fin n)} {g : ℕ}
    (hp : b.blockedIn p = some g) (hg : g < b.gen) :
    ({ b with blockedIn := Function.update b.blockedIn p none } : Barrier n).Inv := by
  have hw := h.blocked_waits p g hp
  refine ⟨h.waits_ge, h.waits_le, fun q hq => ?_, fun q g' hq => ?_, h.count_eq, h.count_le,
    h.arrivals_count⟩
  · by_cases hqp : q = p
    · subst hqp; simp only at hq; omega
    · simp only [Function.update_noteq hqp]; exact h.ahead_blocked q hq
  · by_cases hqp : q = p
    · subst hqp; simp at hq
    · simp only [Function.update_noteq hqp] at hq; exact h.blocked_waits q g' hq

theorem Inv.blocked_le {b : Barrier n} (h : b.Inv) {p : Option (Fin n)} {g : ℕ}
    (hp : b.blockedIn p = some g) : g ≤ b.gen := by
  have := h.blocked_waits p g hp
  have := h.waits_le p
  omega

theorem Inv.exists_behind {b : Barrier n} (h : b.Inv) : ∃ p, b.waits p = b.gen := by
  by_contra hall
  push_neg at hall
  have huniv : b.ahead = Finset.univ := Finset.eq_univ_of_forall fun p => by
    have := h.waits_ge p
    have := h.waits_le p
    have := hall p
    simp only [ahead, Finset.mem_filter, Finset.mem_univ, true_and]
    omega
  have := h.count_le
  rw [h.count_eq, huniv, Finset.card_univ, Fintype.card_option, Fintype.card_fin] at this
  omega

theorem init_inv : (init n).Inv :=
  ⟨fun _ => le_rfl, fun _ => Nat.zero_le _, by simp [init], by simp [init], by simp [init, ahead],
    Nat.zero_le _, by simp [init]⟩

theorem Inv.step {b b' : Barrier n} (h : b.Inv) (hs : Step b b') : b'.Inv := by
  cases hs with
  | arrive p hp => exact h.arrive hp
  | leave p g hp hg => exact h.leave hp hg
  | skip => exact h

/-- What each party shows the barrier: `m` for the orchestrator, `w i` for worker `i`. -/
def view {α : Type} (m : α) (w : Fin n → α) : Option (Fin n) → α
  | none => m
  | some i => w i

@[simp] theorem view_none {α : Type} (m : α) (w : Fin n → α) : view m w none = m := rfl

@[simp] theorem view_some {α : Type} (m : α) (w : Fin n → α) (i : Fin n) :
    view m w (some i) = w i := rfl

theorem view_update {α : Type} {m m' : α} {w w' : Fin n → α} {p : Option (Fin n)}
    (hm : p ≠ none → m' = m) (hw : ∀ i, some i ≠ p → w' i = w i) :
    view m' w' = Function.update (view m w) p (view m' w' p) :=
  Function.eq_update_iff.2 ⟨rfl, fun q hq => by
    rcases q with _ | i
    exacts [hm (Ne.symm hq), hw i hq]⟩

section Party

variable {b b' : Barrier n} {p : Option (Fin n)} {w : ℕ} {o : Option ℕ}

theorem step_of_skip (hW : b'.waits = Function.update b.waits p w)
    (hB : b'.blockedIn = Function.update b.blockedIn p o) (hw : w = b.waits p)
    (ho : o = b.blockedIn p) (hc : b'.count = b.count) (hg : b'.gen = b.gen)
    (ha : b'.arrivals = b.arrivals) : Step b b' := by
  have : b' = b := by
    refine Barrier.ext ?_ ?_ hc hg ha
    · rw [hW, hw]; exact Function.update_eq_self _ _
    · rw [hB, ho]; exact Function.update_eq_self _ _
  rw [this]; exact .skip _

theorem step_of_arrive (hW : b'.waits = Function.update b.waits p w)
    (hB : b'.blockedIn = Function.update b.blockedIn p o) (hw : w = b.waits p + 1)
    (hnone : b.blockedIn p = none) (ho : o = if b.count + 1 = n + 1 then none else some b.gen)
    (hc : b'.count = if b.count + 1 = n + 1 then 0 else b.count + 1)
    (hg : b'.gen = if b.count + 1 = n + 1 then b.gen + 1 else b.gen)
    (ha : b'.arrivals = b.arrivals ++ [(p, b.gen)]) : Step b b' := by
  have : b' = b.arrive p := by
    by_cases hfull : b.count + 1 = n + 1
    · obtain ⟨hb', hc', hg'⟩ := arrive_of_full hfull p
      rw [if_pos hfull] at ho hc hg
      refine Barrier.ext ?_ ?_ ?_ ?_ ?_
      · rw [arrive_waits, ← hw]; exact hW
      · rw [hb', hB, ho, ← hnone, Function.update_eq_self]
      · rw [hc', hc]
      · rw [hg', hg]
      · rw [arrive_arrivals, ha]
    · obtain ⟨hb', hc', hg'⟩ := arrive_of_not_full hfull p
      rw [if_neg hfull] at ho hc hg
      refine Barrier.ext ?_ ?_ ?_ ?_ ?_
      · rw [arrive_waits, ← hw]; exact hW
      · rw [hb', hB, ho]
      · rw [hc', hc]
      · rw [hg', hg]
      · rw [arrive_arrivals, ha]
  rw [this]; exact .arrive _ _ hnone

theorem step_of_leave {g : ℕ} (hW : b'.waits = Function.update b.waits p w)
    (hB : b'.blockedIn = Function.update b.blockedIn p o) (hw : w = b.waits p) (ho : o = none)
    (hp : b.blockedIn p = some g) (hlt : g < b.gen) (hc : b'.count = b.count)
    (hg : b'.gen = b.gen) (ha : b'.arrivals = b.arrivals) : Step b b' := by
  have : b' = { b with blockedIn := Function.update b.blockedIn p none } := by
    refine Barrier.ext ?_ (ho ▸ hB) hc hg ha
    rw [hW, hw]; exact Function.update_eq_self _ _
  rw [this]; exact .leave _ _ _ hp hlt

end Party

end Barrier

end EnzianMemory
