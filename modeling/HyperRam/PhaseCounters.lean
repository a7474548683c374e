import HyperRam.StmInvariants
import HyperRam.Clocked.Events
import HyperRam.Clocked.Run

/-!
# The counters of the bus machines

Each of the three machines counts its command phase and its data phase with one counter. From
reset and under any inputs both phases begin at 0 and stay within a bound that leaves the counter
room to count on (`PhaseCounters`), so no phase is run through twice or cut short. In the other
two states the counter is cleared or stands.

A stay in `STATE_CA` that gets to `STATE_RUN` (`CaStay`) waits for `rwds`, shifts for three clocks
and ends with the one after them, whatever `rwds` does meanwhile. The proof finds the first `rwds`
of the stay, before which the counter stands at 0 (`IsBusStm.waits_stay`) and from which on it
counts the clocks (`IsBusStm.counter_go`). A stay without an `rwds` would not end, and one that a
reset ends does not get to `STATE_RUN`.

All of it is proved of a bus machine along a run. A machine of the source comes in with its counter,
whose width has to have room for the last count and one more (`IsBusStm.phaseCounters`), and
`counters_in_range` has the three.
-/

namespace HyperRam

open Clocked

/-! ## The command phase -/

/-- A stay in `STATE_CA`, in the cycles between `a` and `b`, that ends by entering `STATE_RUN`. -/
structure CaStay (state : ℕ → FsmState) (a b : ℕ) : Prop where
  lt : a + 1 < b
  before : state a ≠ .ca
  ca : ∀ x, a < x → x < b → state x = .ca
  run : state b = .run

namespace IsBusStm

variable {σ ι : Type*} {n last : ℕ} {step : σ → ι → σ} {rst start rwds : ι → Bool}
  {casig : ι → BitVec 48} {bus : σ → BusStm n} {Inv : σ → Prop}
  (p : IsBusStm last step rst start rwds casig bus Inv) {r : Run (AfterReset step rst) step}
include p

/-! ### A bus machine along a run -/

theorem run_inv (t : ℕ) : Inv (r.state t) :=
  r.invariant_afterReset p.inv_reset p.inv_step t

theorem run_next {t : ℕ} (hr : rst (r.input t) = false) :
    (bus (r.state t)).Next last (start (r.input t)) (rwds (r.input t)) (casig (r.input t))
      (bus (r.state (t + 1))) := by
  rw [r.clock]
  exact p.next _ _ (p.run_inv t) hr

theorem run_reset {t : ℕ} (hr : rst (r.input t) = true) :
    (bus (r.state (t + 1))).state = .idle ∧ (bus (r.state (t + 1))).counter = 0 := by
  rw [r.clock]
  exact p.reset _ _ hr

/-- A state other than `STATE_IDLE` is entered without a reset. -/
theorem rst_of_ne_idle {t : ℕ} (hs : (bus (r.state (t + 1))).state ≠ .idle) :
    rst (r.input t) = false :=
  Bool.eq_false_iff.2 fun hr => hs (p.run_reset hr).1

/-! ### A stay that gets to `STATE_RUN` -/

section stay

variable {a b k : ℕ} (h : CaStay (fun t => (bus (r.state t)).state) a b)
include h

/-- There is no reset inside. -/
theorem rst_eq {x : ℕ} (hx : a < x) (hxb : x < b) : rst (r.input x) = false := by
  refine p.rst_of_ne_idle fun hidle => ?_
  rcases Nat.lt_or_ge (x + 1) b with hlt | hge
  · exact absurd (hidle.symm.trans (h.ca (x + 1) (by omega) hlt)) (by simp)
  · obtain rfl : b = x + 1 := by omega
    exact absurd (hidle.symm.trans h.run) (by simp)

/-- The counter stands at 0 until `rwds`. -/
theorem waits_stay : ∀ {x}, a < x → x ≤ b → (∀ y, a < y → y < x → rwds (r.input y) = false) →
    (bus (r.state x)).Waits
  | 0, hx, _, _ => absurd hx (by omega)
  | x + 1, hx, hxb, hlow => by
    rcases Nat.lt_or_ge a x with hlt | hge
    · have hw := waits_stay hlt (by omega) fun y hy hyx => hlow y hy (by omega)
      exact (p.run_next (p.rst_eq h hlt (by omega))).waits hw (hlow x hlt (by omega))
    · obtain rfl : a = x := by omega
      have hca : (bus (r.state (a + 1))).state = .ca := h.ca (a + 1) (by omega) h.lt
      have hr := p.rst_of_ne_idle (r := r) (t := a) (by rw [hca]; simp)
      exact ⟨hca, (p.run_next hr).enter_ca h.before hca⟩

/-- It counts the clocks from the first `rwds` on. -/
theorem counter_go (hk : a < k) (hkb : k < b) (hup : rwds (r.input k) = true)
    (hlow : ∀ y, a < y → y < k → rwds (r.input y) = false) :
    ∀ {j}, 1 ≤ j → j ≤ 4 → k + j ≤ b → (bus (r.state (k + j))).state = .ca ∧
      (bus (r.state (k + j))).counter = j
  | 0, h1, _, _ => absurd h1 (by omega)
  | j + 1, _, h4, hjb => by
    have hn := p.run_next (p.rst_eq h (x := k + j) (by omega) (by omega))
    cases j with
    | zero =>
      have hw := p.waits_stay h hk hkb.le hlow
      have hgo := hn.go hw.1 hw.2 hup
      exact ⟨hgo.1, hgo.2.1⟩
    | succ j =>
      obtain ⟨hs, hc⟩ := counter_go hk hkb hup hlow (j := j + 1) (by omega) (by omega) (by omega)
      have hshift := hn.shift hs (by omega) (by omega)
      exact ⟨hshift.1, hshift.2.1.trans (by rw [hc])⟩

/-- A stay that gets to `STATE_RUN` shifts in the three clocks behind the first `rwds`. -/
theorem shifts : ∃ k, a < k ∧ rwds (r.input k) = true ∧
    (∀ x, a < x → x < k → rwds (r.input x) = false) ∧ b = k + 5 ∧
    ∀ x, a < x → x < b → (bus (r.state (x + 1))).bufferOut =
      if k < x ∧ x ≤ k + 3 then shiftIn (bus (r.state x)).bufferOut 0
      else (bus (r.state x)).bufferOut := by
  obtain ⟨k, hk, hkb, hup, hlow⟩ := exists_first (f := fun x => rwds (r.input x)) fun hlow => by
    have hs := (p.waits_stay h (by have := h.lt; omega) le_rfl hlow).1
    exact absurd (hs.symm.trans h.run) (by simp)
  have hgo := fun j => p.counter_go h hk hkb hup hlow (j := j)
  have hne : ∀ j, 1 ≤ j → j ≤ 4 → b ≠ k + j := fun j h1 h4 hb => by
    subst hb
    exact absurd ((hgo j h1 h4 le_rfl).1.symm.trans h.run) (by simp)
  have h1 := hne 1 (by omega) (by omega)
  have h2 := hne 2 (by omega) (by omega)
  have h3 := hne 3 (by omega) (by omega)
  have h4 := hne 4 (by omega) (by omega)
  obtain ⟨hs4, hc4⟩ := hgo 4 (by omega) le_rfl (by omega)
  have hleave := (p.run_next (p.rst_eq h (x := k + 4) (by omega) (by omega))).leave hs4 hc4
  have hb : b = k + 5 := by
    by_contra hne5
    exact absurd (hleave.1.symm.trans (h.ca (k + 4 + 1) (by omega) (by omega))) (by simp)
  refine ⟨k, hk, hup, hlow, hb, fun x hx hxb => ?_⟩
  have hn := p.run_next (p.rst_eq h hx hxb)
  rcases Nat.lt_trichotomy x k with hlt | rfl | hgt
  · have hw := p.waits_stay h hx (by omega) fun y hy hyx => hlow y hy (by omega)
    rw [if_neg (by omega)]
    exact (hn.wait hw.1 hw.2 (hlow x hx hlt)).2.2
  · have hw := p.waits_stay h hx (by omega) hlow
    rw [if_neg (by omega)]
    exact (hn.go hw.1 hw.2 hup).2.2
  · obtain ⟨j, rfl⟩ := Nat.exists_eq_add_of_lt hgt
    obtain ⟨hs, hc⟩ := hgo (j + 1) (by omega) (by omega) (by omega)
    rw [← Nat.add_assoc] at hs hc
    by_cases h3 : j + 1 ≤ 3
    · rw [if_pos (by omega)]
      exact (hn.shift hs (by omega) (by omega)).2.2
    · rw [if_neg (by omega)]
      exact (hn.leave hs (by omega)).2.2

end stay

end IsBusStm

/-- The phases of a machine along a run : its state, its counter of `w` bits and its shift
register, by the cycle. `last` bounds the counter in `STATE_RUN`. -/
structure PhaseCounters {n w : ℕ} (rwds : ℕ → Bool) (state : ℕ → FsmState)
    (counter : ℕ → BitVec w) (buffer : ℕ → Fin n → BitVec 16) (last : ℕ) : Prop where
  start : state 0 = .idle
  ca_entry : ∀ t, state t ≠ .ca → state (t + 1) = .ca → counter (t + 1) = 0
  ca_le : ∀ t, state t = .ca → (counter t).toNat ≤ 4
  run_entry : ∀ t, state t ≠ .run → state (t + 1) = .run → counter (t + 1) = 0
  run_le : ∀ t, state t = .run → (counter t).toNat ≤ last
  /-- There is room for one more in the phases that count. -/
  no_wrap : ∀ t, state t = .ca ∨ state t = .run → (counter t).toNat + 1 < 2 ^ w
  /-- The other two do not count. -/
  rest : ∀ t, state t = .idle ∨ state t = .done →
    counter (t + 1) = 0 ∨ counter (t + 1) = counter t
  shifts : ∀ a b, CaStay state a b → ∃ k, a < k ∧ rwds k = true ∧
    (∀ x, a < x → x < k → rwds x = false) ∧ b = k + 5 ∧
    ∀ x, a < x → x < b →
      buffer (x + 1) = if k < x ∧ x ≤ k + 3 then shiftIn (buffer x) 0 else buffer x

/-- The phases of a bus machine whose counter register has room for them. -/
theorem IsBusStm.phaseCounters {σ ι : Type*} {n w last : ℕ} {step : σ → ι → σ}
    {rst start rwds : ι → Bool} {casig : ι → BitVec 48} {bus : σ → BusStm n} {Inv : σ → Prop}
    (p : IsBusStm last step rst start rwds casig bus Inv) {counter : σ → BitVec w}
    (hc : ∀ m, (counter m).toNat = (bus m).counter) (hw : 5 < 2 ^ w ∧ last + 1 < 2 ^ w)
    (r : Run (AfterReset step rst) step) :
    PhaseCounters (fun t => rwds (r.input t)) (fun t => (bus (r.state t)).state)
      (fun t => counter (r.state t)) (fun t => (bus (r.state t)).bufferOut) last := by
  have hinv (t : ℕ) := p.inv _ (p.run_inv (r := r) t)
  have hzero {m : σ} (h0 : (bus m).counter = 0) : counter m = 0 :=
    BitVec.eq_of_toNat_eq ((hc m).trans (h0.trans (by simp)))
  have hcounts (t : ℕ) : ∀ {s}, (bus (r.state (t + 1))).state = s → s ≠ .idle →
      rst (r.input t) = false := fun hs hne => p.rst_of_ne_idle (hs ▸ hne)
  constructor
  case start =>
    obtain ⟨m, i, hr, h⟩ := r.start
    rw [h]
    exact (p.reset m i hr).1
  case ca_entry =>
    exact fun t hs hs' => hzero ((p.run_next (hcounts t hs' (by simp))).enter_ca hs hs')
  case ca_le => exact fun t hs => (hc _).trans_le ((hinv t).ca_le hs)
  case run_entry =>
    exact fun t hs hs' => hzero ((p.run_next (hcounts t hs' (by simp))).enter_run (hinv t) hs hs')
  case run_le => exact fun t hs => (hc _).trans_le ((hinv t).run_le hs)
  case no_wrap =>
    rintro t (hs | hs)
    · have := (hc _).trans_le ((hinv t).ca_le hs)
      omega
    · have := (hc _).trans_le ((hinv t).run_le hs)
      omega
  case rest =>
    intro t hs
    cases hr : rst (r.input t)
    case true => exact .inl (hzero (p.run_reset hr).2)
    case false =>
      rcases hs with hs | hs
      · exact .inl (hzero ((p.run_next hr).idle hs).2.1)
      · refine .inr (BitVec.eq_of_toNat_eq ?_)
        rw [hc, hc]
        exact ((p.run_next hr).done hs).2
  case shifts => exact fun _ _ h => p.shifts h

/-- From reset and under any inputs the counters of the three machines stay in range, each phase
begins at 0, and a command phase that ends in a data phase shifts three times. -/
theorem counters_in_range :
    (∀ r : Run (AfterReset RdregStm.step ReadIn.rst) RdregStm.step,
      PhaseCounters (fun t => (r.input t).rwdsIn) (fun t => (r.state t).state)
        (fun t => (r.state t).counter) (fun t => (r.state t).bufferOut) 14) ∧
    (∀ r : Run (AfterReset RdmemStm.step ReadIn.rst) RdmemStm.step,
      PhaseCounters (fun t => (r.input t).rwdsIn) (fun t => (r.state t).state)
        (fun t => (r.state t).counter) (fun t => (r.state t).bufferOut) 32) ∧
    ∀ r : Run (AfterReset WrmemStm.step WriteIn.rst) WrmemStm.step,
      PhaseCounters (fun t => (r.input t).rwdsIn) (fun t => (r.state t).state)
        (fun t => (r.state t).counter) (fun t => (r.state t).bufferOut) 29 :=
  ⟨RdregStm.isBusStm.phaseCounters (fun _ => rfl) (by omega),
    RdmemStm.isBusStm.phaseCounters (fun _ => rfl) (by omega),
    WrmemStm.isBusStm.phaseCounters (fun _ => rfl) (by omega)⟩

end HyperRam
