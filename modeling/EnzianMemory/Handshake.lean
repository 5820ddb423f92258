import Mathlib.Data.List.Basic
import Mathlib.Logic.Relation

/-!
The mailbox protocol of the core-to-core test as the two mailboxes see it: the ping side
stores the round number in `c2c_data[0]` and waits for its echo in `c2c_data[16]`, the echo
side copies one into the other. The barrier of `do_c2c_test` appears only as the guard of
`read`: the echo side reads once the ping side has initialised both mailboxes.
-/

namespace EnzianMemory.CoreToCore

open scoped List

inductive Event
  | init0
  | init16
  | write (i : ℕ)
  | leave (i : ℕ)
  | read (v : UInt64)
  | echo (v : UInt64)
  | exit
  deriving DecidableEq, Repr

/-- What the mailboxes hold when round `i` starts: the previous round's value, or the
initialising `1` before round `1000`. -/
def previous (i : ℕ) : ℕ :=
  if i = 1000 then 1 else i + 1

/-- Where the ping side is: before its stores, between them, before or after its store of
round `i`, or past the last round. -/
inductive Ping
  | fresh
  | half
  | before (i : ℕ)
  | after (i : ℕ)
  | finished
  deriving DecidableEq, Repr

inductive Copy
  | idle
  | holding (v : UInt64)
  | gone
  deriving DecidableEq, Repr

@[simp] def Ping.stage : Ping → ℕ
  | .fresh => 0
  | .half => 1
  | .before _ | .after _ | .finished => 2

/-- The last value stored in `c2c_data[0]`. -/
@[simp] def Ping.sent : Ping → ℕ
  | .fresh => 0
  | .half => 1
  | .before i => previous i
  | .after i => i
  | .finished => 0

@[simp] def Ping.acked : Ping → ℕ
  | .fresh | .half => 1
  | .before i | .after i => previous i
  | .finished => 0

@[simp] def Ping.round : Ping → ℕ
  | .before i | .after i => i
  | .fresh | .half | .finished => 0

structure Handshake where
  data0 : UInt64
  data16 : UInt64
  ping : Ping
  copy : Copy
  log : List Event

namespace Handshake

def init (a b : UInt64) : Handshake :=
  ⟨a, b, .fresh, .idle, []⟩

inductive Step : Handshake → Handshake → Prop
  | init0 (h : Handshake) : h.ping = .fresh →
      Step h { h with data0 := 1, ping := .half, log := h.log ++ [.init0] }
  | init16 (h : Handshake) : h.ping = .half →
      Step h { h with data16 := 1, ping := .before 1000, log := h.log ++ [.init16] }
  | write (h : Handshake) (i : ℕ) : h.ping = .before i →
      Step h { h with data0 := UInt64.ofNat i, ping := .after i, log := h.log ++ [.write i] }
  | poll (h : Handshake) (i : ℕ) : h.ping = .after i → h.data16 = UInt64.ofNat i →
      Step h { h with ping := if i = 0 then .finished else .before (i - 1),
                      log := h.log ++ [.leave i] }
  | read (h : Handshake) : h.copy = .idle → 2 ≤ h.ping.stage →
      Step h { h with copy := .holding h.data0, log := h.log ++ [.read h.data0] }
  | echo (h : Handshake) (v : UInt64) : h.copy = .holding v →
      Step h { h with data16 := v, copy := if v = 0 then .gone else .idle,
                      log := h.log ++ if v = 0 then [.echo v, .exit] else [.echo v] }
  | skip (h : Handshake) : Step h h

def Reachable (a b : UInt64) (h : Handshake) : Prop :=
  Relation.ReflTransGen Step (init a b) h

end Handshake

theorem ofNat_inj {a b : ℕ} (ha : a ≤ 1001) (hb : b ≤ 1001) :
    UInt64.ofNat a = UInt64.ofNat b ↔ a = b := by
  refine ⟨fun h => ?_, congrArg _⟩
  have := congrArg UInt64.toNat h
  rwa [UInt64.toNat_ofNat_of_lt (lt_of_le_of_lt ha (by decide)),
    UInt64.toNat_ofNat_of_lt (lt_of_le_of_lt hb (by decide))] at this

theorem previous_le {i : ℕ} (hi : i ≤ 1000) : previous i ≤ 1001 := by
  unfold previous; split_ifs <;> omega

theorem previous_pos (i : ℕ) : 0 < previous i := by
  unfold previous; split_ifs <;> omega

theorem previous_ne (i : ℕ) : previous i ≠ i := by
  unfold previous; split_ifs <;> omega

theorem previous_pred {i : ℕ} (h0 : i ≠ 0) (hi : i ≤ 1000) : previous (i - 1) = i := by
  unfold previous; split_ifs <;> omega

theorem Ping.stage_le (p : Ping) : p.stage ≤ 2 := by
  cases p <;> simp

theorem Ping.sent_le {p : Ping} (hr : p.round ≤ 1000) : p.sent ≤ 1001 := by
  cases p <;> simp only [Ping.round, Ping.sent] at hr ⊢ <;> first | omega | exact previous_le hr

theorem Ping.acked_le {p : Ping} (hr : p.round ≤ 1000) : p.acked ≤ 1001 := by
  cases p <;> simp only [Ping.round, Ping.acked] at hr ⊢ <;> first | omega | exact previous_le hr

theorem Ping.eq_of_zero {p : Ping} (hr : p.round ≤ 1000) (hst : 2 ≤ p.stage)
    (h : 0 = UInt64.ofNat p.acked ∨ 0 = UInt64.ofNat p.sent) : p = .after 0 ∨ p = .finished := by
  have h' : 0 = p.acked ∨ 0 = p.sent := by
    rcases h with h | h
    · exact .inl ((ofNat_inj (Nat.zero_le _) (acked_le hr)).mp h)
    · exact .inr ((ofNat_inj (Nat.zero_le _) (sent_le hr)).mp h)
  rcases p with _ | _ | i | i | _
  · simp at hst
  · simp at hst
  · have := previous_pos i
    simp only [Ping.acked, Ping.sent] at h'
    omega
  · have := previous_pos i
    simp only [Ping.acked, Ping.sent] at h'
    rcases h' with h' | h'
    · omega
    · exact .inl (by rw [← h'])
  · exact .inr rfl

section Before

variable {P : List Event → Prop} {l x : List Event} {e : Event}

theorem before_append (hP : ∀ a b, P a → P (a ++ b))
    (hl : ∀ pre post, l = pre ++ e :: post → P pre) (hx : e ∈ x → P l) :
    ∀ pre post, l ++ x = pre ++ e :: post → P pre := by
  intro pre post h
  rcases List.append_eq_append_iff.mp h with ⟨a, rfl, hxa⟩ | ⟨c, hlc, hc⟩
  · exact hP _ _ (hx (by simp [hxa]))
  · rcases c with _ | ⟨y, c⟩
    · rw [List.append_nil] at hlc
      rw [List.nil_append] at hc
      exact hlc ▸ hx (by simp [← hc])
    · simp only [List.cons_append, List.cons.injEq] at hc
      exact hl pre c (hc.1 ▸ hlc)

theorem before_append_of_not_mem (hP : ∀ a b, P a → P (a ++ b))
    (hl : ∀ pre post, l = pre ++ e :: post → P pre) (hx : e ∉ x) :
    ∀ pre post, l ++ x = pre ++ e :: post → P pre :=
  before_append hP hl fun h => absurd h hx

end Before

theorem sublist_mono {s : List Event} : ∀ a b : List Event, s <+ a → s <+ a ++ b :=
  fun a b h => h.trans (List.sublist_append_left a b)

theorem mem_mono {e : Event} : ∀ a b : List Event, e ∈ a → e ∈ a ++ b :=
  fun _ b h => List.mem_append_left b h

namespace Handshake

structure Values (h : Handshake) : Prop where
  round_le : h.ping.round ≤ 1000
  data0 : 1 ≤ h.ping.stage → h.data0 = UInt64.ofNat h.ping.sent
  data16 : 2 ≤ h.ping.stage →
    h.data16 = UInt64.ofNat h.ping.acked ∨ h.data16 = UInt64.ofNat h.ping.sent
  holding : ∀ v, h.copy = .holding v →
    2 ≤ h.ping.stage ∧ (v = UInt64.ofNat h.ping.acked ∨ v = UInt64.ofNat h.ping.sent)
  holding_echoed : ∀ i v, h.ping = .after i → h.data16 = UInt64.ofNat i → h.copy = .holding v →
    v = UInt64.ofNat i
  gone : h.copy = .gone → h.data16 = 0 ∧ (h.ping = .after 0 ∨ h.ping = .finished)

structure History (h : Handshake) : Prop where
  inited : [Event.init0, .init16].take h.ping.stage <+ h.log
  written : ∀ i, h.ping = .after i ∨ (h.ping = .finished ∧ i = 0) → Event.write i ∈ h.log
  read_after_write : ∀ i, h.ping = .after i → h.copy = .holding (UInt64.ofNat i) →
    [Event.write i, .read (UInt64.ofNat i)] <+ h.log
  echo_after_read : ∀ i, h.ping = .after i → h.data16 = UInt64.ofNat i →
    [Event.write i, .read (UInt64.ofNat i), .echo (UInt64.ofNat i)] <+ h.log
  leave_log : ∀ i pre post, h.log = pre ++ .leave i :: post →
    [Event.write i, .read (UInt64.ofNat i), .echo (UInt64.ofNat i)] <+ pre
  read_log : ∀ v pre post, h.log = pre ++ .read v :: post → [Event.init0, .init16] <+ pre
  exit_log : ∀ pre post, h.log = pre ++ .exit :: post → Event.write 0 ∈ pre

section Values

variable {h h' : Handshake}

theorem Values.not_holding (hv : h.Values) (hst : h.ping.stage < 2) (v : UInt64) :
    h.copy ≠ .holding v :=
  fun hc => absurd (hv.holding v hc).1 (by omega)

theorem Values.not_gone (hv : h.Values) (hst : h.ping.stage < 2) : h.copy ≠ .gone :=
  fun hc => by rcases (hv.gone hc).2 with hp | hp <;> simp [hp] at hst

theorem Values.data16_before (hv : h.Values) {i : ℕ} (hp : h.ping = .before i) :
    h.data16 = UInt64.ofNat (previous i) := by
  have := hv.data16 (by simp [hp])
  simpa [hp] using this

theorem Values.holding_before (hv : h.Values) {i : ℕ} (hp : h.ping = .before i) {v : UInt64}
    (hc : h.copy = .holding v) : v = UInt64.ofNat (previous i) := by
  have := (hv.holding v hc).2
  simpa [hp] using this

theorem Values.ofNat_previous_ne (hv : h.Values) {i : ℕ} (hp : h.ping = .before i) :
    UInt64.ofNat (previous i) ≠ UInt64.ofNat i := by
  have hi : i ≤ 1000 := by simpa [hp] using hv.round_le
  rw [Ne, ofNat_inj (previous_le hi) (by omega)]
  exact previous_ne i

theorem Values.step (hv : h.Values) (hs : Step h h') : h'.Values := by
  cases hs with
  | init0 hp =>
    have hst : h.ping.stage < 2 := by simp [hp]
    exact ⟨by simp, fun _ => rfl, by simp, fun v hc => absurd hc (hv.not_holding hst v),
      fun i v hp' => by simp at hp', fun hc => absurd hc (hv.not_gone hst)⟩
  | init16 hp =>
    have hst : h.ping.stage < 2 := by simp [hp]
    have h0 := hv.data0 (by simp [hp])
    simp only [hp, Ping.sent] at h0
    exact ⟨by simp, fun _ => h0.trans (by simp [previous]), fun _ => .inl (by simp [previous]),
      fun v hc => absurd hc (hv.not_holding hst v), fun i v hp' => by simp at hp',
      fun hc => absurd hc (hv.not_gone hst)⟩
  | write i hp =>
    have hr : i ≤ 1000 := by simpa [hp] using hv.round_le
    refine ⟨by simpa using hr, fun _ => rfl, fun _ => .inl (by simpa using hv.data16_before hp),
      fun v hc => ⟨by simp, .inl (by simpa using hv.holding_before hp hc)⟩,
      fun j v hp' hd => ?_, fun hc => ?_⟩
    · simp only [Ping.after.injEq] at hp'
      subst hp'
      exact absurd ((hv.data16_before hp).symm.trans hd) (hv.ofNat_previous_ne hp)
    · rcases (hv.gone hc).2 with hp' | hp' <;> simp [hp] at hp'
  | poll i hp hd =>
    have hr : i ≤ 1000 := by simpa [hp] using hv.round_le
    have h0 := hv.data0 (by simp [hp])
    simp only [hp, Ping.sent] at h0
    by_cases hi : i = 0
    · subst hi
      exact ⟨by simp, fun _ => h0, fun _ => .inl (by simpa using hd), fun v hc =>
        ⟨by simp, .inl (by simpa using hv.holding_echoed 0 v hp hd hc)⟩,
        fun j v hp' => by simp at hp', fun _ => ⟨hd, .inr (by simp)⟩⟩
    · have hprev := previous_pred hi hr
      refine ⟨by simp [hi]; omega, fun _ => by simp [hi, hprev, h0],
        fun _ => .inl (by simp [hi, hprev, hd]), fun v hc => ⟨by simp [hi], .inl ?_⟩,
        fun j v hp' => by simp [hi] at hp', fun hc => ?_⟩
      · simpa [hi, hprev] using hv.holding_echoed i v hp hd hc
      · rcases (hv.gone hc).2 with hp' | hp' <;> simp [hp] at hp'
        exact absurd hp' hi
  | read hc hst =>
    refine ⟨hv.round_le, hv.data0, hv.data16, fun v hv' => ?_, fun i v hp hd hv' => ?_,
      fun h => by simp at h⟩
    · simp only [Copy.holding.injEq] at hv'
      exact ⟨hst, .inr (hv' ▸ hv.data0 (by omega))⟩
    · simp only [Copy.holding.injEq] at hv'
      rw [← hv', hv.data0 (by omega), hp, Ping.sent]
  | echo v hc =>
    obtain ⟨hst, hvv⟩ := hv.holding v hc
    refine ⟨hv.round_le, hv.data0, fun _ => hvv, fun w hw => ?_, fun i w _ _ hw => ?_, fun hg => ?_⟩
    · split_ifs at hw
    · split_ifs at hw
    · split_ifs at hg with h0
      subst h0
      exact ⟨rfl, Ping.eq_of_zero hv.round_le hst hvv⟩
  | skip => exact hv

end Values

section History

variable {h h' : Handshake}

theorem History.leave_log_append (hh : h.History) {x : List Event}
    (hx : ∀ j, Event.leave j ∉ x) (i : ℕ) : ∀ pre post, h.log ++ x = pre ++ .leave i :: post →
      [Event.write i, .read (UInt64.ofNat i), .echo (UInt64.ofNat i)] <+ pre :=
  before_append_of_not_mem sublist_mono (hh.leave_log i) (hx i)

theorem History.read_log_append (hh : h.History) {x : List Event}
    (hx : ∀ v, Event.read v ∉ x) (v : UInt64) :
    ∀ pre post, h.log ++ x = pre ++ .read v :: post → [Event.init0, .init16] <+ pre :=
  before_append_of_not_mem sublist_mono (hh.read_log v) (hx v)

theorem History.exit_log_append (hh : h.History) {x : List Event} (hx : Event.exit ∉ x) :
    ∀ pre post, h.log ++ x = pre ++ .exit :: post → Event.write 0 ∈ pre :=
  before_append_of_not_mem mem_mono hh.exit_log hx

theorem History.step (hv : h.Values) (hh : h.History) (hs : Step h h') : h'.History := by
  cases hs with
  | init0 hp =>
    exact ⟨by simp, fun i hi => by simp at hi, fun i hp' => by simp at hp',
      fun i hp' => by simp at hp', hh.leave_log_append (by simp), hh.read_log_append (by simp),
      hh.exit_log_append (by simp)⟩
  | init16 hp =>
    have hi := hh.inited
    simp only [hp, Ping.stage] at hi
    exact ⟨by simpa using hi.append (List.Sublist.refl [Event.init16]),
      fun i hi => by simp at hi, fun i hp' => by simp at hp', fun i hp' => by simp at hp',
      hh.leave_log_append (by simp), hh.read_log_append (by simp), hh.exit_log_append (by simp)⟩
  | write i hp =>
    refine ⟨by simpa [hp] using sublist_mono _ _ hh.inited, fun j hj => ?_, fun j hp' hc => ?_,
      fun j hp' hd => ?_, hh.leave_log_append (by simp), hh.read_log_append (by simp),
      hh.exit_log_append (by simp)⟩
    · simp only [Ping.after.injEq, reduceCtorEq, false_and, or_false] at hj
      simp [hj]
    · simp only [Ping.after.injEq] at hp'
      subst hp'
      exact absurd (hv.holding_before hp hc) (hv.ofNat_previous_ne hp).symm
    · simp only [Ping.after.injEq] at hp'
      subst hp'
      exact absurd ((hv.data16_before hp).symm.trans hd) (hv.ofNat_previous_ne hp)
  | poll i hp hd =>
    refine ⟨?_, fun j hj => ?_, fun j hp' => ?_, fun j hp' => ?_, ?_,
      hh.read_log_append (by simp), hh.exit_log_append (by simp)⟩
    · have := sublist_mono _ [Event.leave i] hh.inited
      split_ifs <;> simpa [hp] using this
    · split_ifs at hj with hi
      · simp only [reduceCtorEq, true_and, false_or] at hj
        subst hj hi
        exact mem_mono _ _ (hh.written 0 (.inl hp))
      · simp at hj
    · split_ifs at hp'
    · split_ifs at hp'
    · exact fun j => before_append sublist_mono (hh.leave_log j) fun he => by
        simp only [List.mem_singleton, Event.leave.injEq] at he
        exact he ▸ hh.echo_after_read i hp hd
  | read hc hst =>
    refine ⟨sublist_mono _ _ hh.inited, fun j hj => mem_mono _ _ (hh.written j hj),
      fun j hp' hc' => ?_, fun j hp' hd => sublist_mono _ _ (hh.echo_after_read j hp' hd),
      hh.leave_log_append (by simp), ?_, hh.exit_log_append (by simp)⟩
    · simp only [Copy.holding.injEq] at hc'
      rw [hc']
      exact List.Sublist.append (List.singleton_sublist.mpr (hh.written j (.inl hp')))
        (List.Sublist.refl _)
    · refine fun w => before_append sublist_mono (hh.read_log w) fun _ => ?_
      have := hh.inited
      rwa [le_antisymm h.ping.stage_le hst] at this
  | echo v hc =>
    obtain ⟨hst, hvv⟩ := hv.holding v hc
    refine ⟨sublist_mono _ _ hh.inited, fun j hj => mem_mono _ _ (hh.written j hj),
      fun j hp' hc' => ?_, fun j hp' hd => ?_, hh.leave_log_append (by split_ifs <;> simp),
      hh.read_log_append (by split_ifs <;> simp), ?_⟩
    · split_ifs at hc'
    · simp only at hp' hd
      subst hd
      have h2 : [Event.echo (UInt64.ofNat j)] <+ if UInt64.ofNat j = 0 then
          [.echo (UInt64.ofNat j), .exit] else [.echo (UInt64.ofNat j)] := by
        split_ifs <;> simp
      exact (hh.read_after_write j hp' hc).append h2
    · refine before_append mem_mono hh.exit_log fun he => ?_
      have h0 : v = 0 := by split_ifs at he with h0 <;> simp_all
      subst h0
      exact hh.written 0 ((Ping.eq_of_zero hv.round_le hst hvv).imp (·) (⟨·, rfl⟩))
  | skip => exact hh

end History

theorem Reachable.values_history {a b : UInt64} {h : Handshake} (hr : Reachable a b h) :
    h.Values ∧ h.History := by
  induction hr with
  | refl =>
    exact ⟨⟨by simp [init], by simp [init], by simp [init], by simp [init], by simp [init],
      by simp [init]⟩, ⟨by simp [init], by simp [init], by simp [init], by simp [init],
      by simp [init], by simp [init], by simp [init]⟩⟩
  | tail _ hs ih => exact ⟨ih.1.step hs, ih.2.step ih.1 hs⟩

end Handshake

end EnzianMemory.CoreToCore
