import Mathlib.Algebra.BigOperators.Fin
import Mathlib.Algebra.Order.BigOperators.Group.Finset
import Mathlib.Logic.Relation

/-!
`enzian_fpi_read` and `fpi_handler` over the shared `wq_flag`, one statement at a time.
`wait_event_interruptible(wq, wq_flag != 0)` is passed only while `wq_flag != 0`, or ended by a
signal; `wake_up_interruptible` changes nothing a waiter does not re-check. The counters are
ghost state.
-/

namespace EnzianMemory.Fpi

/-- A reader before `read`, inside the wait, or past it and about to store `wq_flag = 0`. -/
inductive ReaderPc
  | idle
  | waiting
  | woken
  deriving DecidableEq, Repr

structure State (k : ℕ) where
  flag : ℕ
  reader : Fin k → ReaderPc
  handled : ℕ
  passed : ℕ
  signalled : ℕ
  returned : ℕ

inductive Action (k : ℕ)
  | call (i : Fin k)
  | pass (i : Fin k)
  | signal (i : Fin k)
  | clear (i : Fin k)
  | interrupt
  deriving DecidableEq, Repr

variable {k : ℕ}

/-- `enzian_fpi_init` leaves `wq_flag = 0`. -/
def init (k : ℕ) : State k :=
  ⟨0, fun _ => .idle, 0, 0, 0, 0⟩

def step (s : State k) : Action k → Option (State k)
  | .call i =>
    match s.reader i with
    | .idle => some { s with reader := Function.update s.reader i .waiting }
    | _ => none
  | .pass i =>
    match s.reader i with
    | .waiting =>
      if s.flag ≠ 0 then
        some { s with reader := Function.update s.reader i .woken, passed := s.passed + 1 }
      else none
    | _ => none
  | .signal i =>
    match s.reader i with
    | .waiting =>
      some { s with reader := Function.update s.reader i .woken, signalled := s.signalled + 1 }
    | _ => none
  | .clear i =>
    match s.reader i with
    | .woken =>
      some { s with flag := 0, reader := Function.update s.reader i .idle,
                    returned := s.returned + 1 }
    | _ => none
  | .interrupt => some { s with flag := 1, handled := s.handled + 1 }

def Step (s s' : State k) : Prop :=
  ∃ a, step s a = some s'

def Reachable (s : State k) : Prop :=
  Relation.ReflTransGen Step (init k) s

/-- The branches of `step`, each with the guard it tests. -/
inductive Move : State k → State k → Prop
  | call (s : State k) (i : Fin k) : s.reader i = .idle →
      Move s { s with reader := Function.update s.reader i .waiting }
  | pass (s : State k) (i : Fin k) : s.reader i = .waiting → s.flag ≠ 0 →
      Move s { s with reader := Function.update s.reader i .woken, passed := s.passed + 1 }
  | signal (s : State k) (i : Fin k) : s.reader i = .waiting →
      Move s { s with reader := Function.update s.reader i .woken, signalled := s.signalled + 1 }
  | clear (s : State k) (i : Fin k) : s.reader i = .woken →
      Move s { s with flag := 0, reader := Function.update s.reader i .idle,
                      returned := s.returned + 1 }
  | interrupt (s : State k) : Move s { s with flag := 1, handled := s.handled + 1 }

theorem step_move {s s' : State k} {a : Action k} (h : step s a = some s') : Move s s' := by
  cases a with
  | call i =>
    rcases hr : s.reader i <;> simp only [step, hr, reduceCtorEq] at h
    cases h; exact .call s i hr
  | pass i =>
    rcases hr : s.reader i <;> simp only [step, hr, reduceCtorEq] at h
    split_ifs at h with hf
    cases h; exact .pass s i hr hf
  | signal i =>
    rcases hr : s.reader i <;> simp only [step, hr, reduceCtorEq] at h
    cases h; exact .signal s i hr
  | clear i =>
    rcases hr : s.reader i <;> simp only [step, hr, reduceCtorEq] at h
    cases h; exact .clear s i hr
  | interrupt => cases h; exact .interrupt s

def run (s : State k) : List (Action k) → Option (State k)
  | [] => some s
  | a :: as => (step s a).bind (run · as)

theorem run_reachable {s t : State k} {l : List (Action k)} (h : run s l = some t) :
    Relation.ReflTransGen Step s t := by
  induction l generalizing s with
  | nil => cases h; exact .refl
  | cons a l ih =>
    simp only [run, Option.bind_eq_some] at h
    obtain ⟨s', hs', ht⟩ := h
    exact .head ⟨a, hs'⟩ (ih ht)

/-- How many readers are past the wait and have not yet cleared `wq_flag`. -/
def wokenCount (r : Fin k → ReaderPc) : ℕ :=
  ∑ i, if r i = .woken then 1 else 0

theorem sum_update_ite {α : Type} (r : Fin k → α) (i : Fin k) (b : α) (p : α → Prop)
    [DecidablePred p] :
    (∑ j, if p (Function.update r i b j) then 1 else 0) + (if p (r i) then 1 else 0) =
      (∑ j, if p (r j) then 1 else 0) + (if p b then 1 else 0) := by
  have h1 := Finset.add_sum_erase Finset.univ
    (fun j => if p (Function.update r i b j) then 1 else 0) (Finset.mem_univ i)
  have h2 := Finset.add_sum_erase Finset.univ (fun j => if p (r j) then 1 else 0)
    (Finset.mem_univ i)
  have h3 : ∑ j in Finset.univ.erase i, (if p (Function.update r i b j) then 1 else 0) =
      ∑ j in Finset.univ.erase i, (if p (r j) then 1 else 0) :=
    Finset.sum_congr rfl fun j hj => by rw [Function.update_noteq (Finset.ne_of_mem_erase hj)]
  simp only [Function.update_same] at h1 h2
  omega

theorem wokenCount_update (r : Fin k → ReaderPc) (i : Fin k) (b : ReaderPc) :
    wokenCount (Function.update r i b) + (if r i = .woken then 1 else 0) =
      wokenCount r + (if b = .woken then 1 else 0) :=
  sum_update_ite r i b (· = .woken)

theorem wokenCount_le (r : Fin k → ReaderPc) : wokenCount r ≤ k := by
  calc wokenCount r ≤ ∑ _i : Fin k, 1 := Finset.sum_le_sum fun i _ => by split_ifs <;> simp
    _ = k := by simp

theorem wokenCount_update_ne (r : Fin k → ReaderPc) (i : Fin k) (b : ReaderPc)
    (hb : b ≠ .woken) :
    wokenCount (Function.update r i b) + (if r i = .woken then 1 else 0) = wokenCount r := by
  simpa [hb] using wokenCount_update r i b

theorem wokenCount_update_woken (r : Fin k → ReaderPc) (i : Fin k) (h : r i ≠ .woken) :
    wokenCount (Function.update r i .woken) = wokenCount r + 1 := by
  simpa [h] using wokenCount_update r i .woken

theorem wokenCount_lt (r : Fin k → ReaderPc) (i : Fin k) (h : r i ≠ .woken) :
    wokenCount r < k := by
  have := wokenCount_le (Function.update r i .woken)
  rw [wokenCount_update_woken r i h] at this
  omega

/-- `wq_flag` is 0 or 1; while it is set, every reader not yet past the wait may still pass
it once for the interrupts handled; every read that returned was passed or signalled. -/
structure Inv (s : State k) : Prop where
  flag_le : s.flag ≤ 1
  passed_le : s.passed + (if s.flag = 0 then 0 else k - wokenCount s.reader) ≤ k * s.handled
  returned_eq : s.returned + wokenCount s.reader = s.passed + s.signalled

variable {s s' : State k}

theorem Inv.move (hs : Inv s) (h : Move s s') : Inv s' := by
  obtain ⟨hf, hp, hr⟩ := hs
  cases h with
  | call i hi =>
    have hc := wokenCount_update_ne s.reader i .waiting (by decide)
    rw [hi, if_neg (by decide)] at hc
    exact ⟨hf, by dsimp only; rwa [← hc] at hp, by dsimp only; omega⟩
  | pass i hi hf0 =>
    have hw : s.reader i ≠ .woken := by rw [hi]; decide
    have hc := wokenCount_update_woken s.reader i hw
    have hlt := wokenCount_lt s.reader i hw
    refine ⟨hf, ?_, ?_⟩ <;> dsimp only <;> rw [hc]
    · rw [if_neg hf0] at hp ⊢; omega
    · omega
  | signal i hi =>
    have hc := wokenCount_update_woken s.reader i (by rw [hi]; decide)
    refine ⟨hf, ?_, ?_⟩ <;> dsimp only <;> rw [hc]
    · split_ifs at hp ⊢ <;> omega
    · omega
  | clear i hi =>
    have hc := wokenCount_update_ne s.reader i .idle (by decide)
    rw [hi, if_pos rfl] at hc
    refine ⟨Nat.zero_le _, ?_, ?_⟩ <;> dsimp only
    · rw [if_pos rfl]; split_ifs at hp <;> omega
    · omega
  | interrupt =>
    refine ⟨Nat.le_refl 1, ?_, hr⟩
    dsimp only
    rw [if_neg one_ne_zero, Nat.mul_succ]
    split_ifs at hp <;> omega

theorem init_inv (k : ℕ) : Inv (init k) :=
  ⟨Nat.zero_le _, by simp [init], by simp [init, wokenCount]⟩

theorem Reachable.inv (h : Reachable s) : Inv s := by
  induction h with
  | refl => exact init_inv k
  | tail _ hst ih => obtain ⟨_, h⟩ := hst; exact ih.move (step_move h)

theorem fpi_readers_bound (h : Reachable s) :
    s.passed ≤ k * s.handled ∧ s.returned ≤ k * s.handled + s.signalled := by
  obtain ⟨-, hp, hr⟩ := h.inv
  have : s.passed ≤ k * s.handled := by split_ifs at hp <;> omega
  exact ⟨this, by omega⟩

theorem fpi_readers_bound_two :
    ∃ s : State 2, Reachable s ∧ s.passed = 2 ∧ s.handled = 1 ∧
      (s.passed ≤ 2 * s.handled ∧ s.returned ≤ 2 * s.handled + s.signalled) :=
  have h := run_reachable (s := init 2) (l := [.call 0, .call 1, .interrupt, .pass 0, .pass 1]) rfl
  ⟨_, h, rfl, rfl, fpi_readers_bound h⟩

section One

/-- The flag a reader has not yet consumed: none while it is past the wait, since its
`wq_flag = 0` will clear whatever is there. -/
def pending (s : State 1) : ℕ :=
  if s.reader 0 = .woken then 0 else s.flag

theorem wokenCount_one (r : Fin 1 → ReaderPc) :
    wokenCount r = if r 0 = .woken then 1 else 0 :=
  Fin.sum_univ_one _

theorem fpi_single_reader {s : State 1} (h : Reachable s) :
    s.passed + pending s ≤ s.handled ∧ s.returned ≤ s.handled + s.signalled := by
  obtain ⟨hf, hp, hr⟩ := h.inv
  rw [wokenCount_one] at hp hr
  simp only [pending, one_mul]
  split_ifs at hp hr ⊢ <;> omega

theorem fpi_single_reader_woken :
    ∃ s : State 1, Reachable s ∧ s.reader 0 = .woken ∧ s.passed = 1 ∧
      (s.passed + pending s ≤ s.handled ∧ s.returned ≤ s.handled + s.signalled) :=
  have h := run_reachable (s := init 1) (l := [.call 0, .interrupt, .pass 0]) rfl
  ⟨_, h, rfl, rfl, fpi_single_reader h⟩

end One

theorem fpi_interrupts_coalesce :
    (∃ s : State 1, Reachable s ∧ s.handled ≠ s.passed + s.flag) ∧
      ∃ s : State 2, Reachable s ∧ s.handled < s.returned :=
  ⟨⟨_, run_reachable (s := init 1) (l := [.interrupt, .interrupt]) rfl, by decide⟩,
    ⟨_, run_reachable (s := init 2)
      (l := [.call 0, .call 1, .interrupt, .pass 0, .pass 1, .clear 0, .clear 1]) rfl,
      by decide⟩⟩

end EnzianMemory.Fpi
