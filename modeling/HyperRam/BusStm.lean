import HyperRam.CompStm
import HyperRam.Clocked.Handshake
import HyperRam.Clocked.Run
import Mathlib.Tactic

/-!
# Bus machines

The three machines of `comp_stm.sv` go through their four states in the same way. They differ in
the count at which `STATE_RUN` ends, in the data words behind the command and in what they do
with the data. `BusStm` is what they have in common, as their master and the pads see it, `Inv` what
holds of it in every cycle and `Next` one clock of it. `IsBusStm` says that a machine of the source,
seen through `bus`, does these clocks as long as its own invariant holds. Each of the three is shown
to be one in `StmInvariants`, and what is proved here is used of all of them.

The counters of the three have different widths, so the view has a number for the counter.
`caClock_eq` leads the tests of the source in `STATE_CA` over to numbers, `Inv.of_bits` and
`Next.of_bits` the rest of a machine.

What holds of all three follows from that once : they serve the start/end handshake
(`Next.server`), they have a number of clocks left that a clock lowers by one unless it is
spent waiting for `rwds` (`Next.left_step`), while they wait nothing moves (`Next.waits`), and the
command words leave the shift register in the three clocks behind the first `rwds` (`Next.shift`).
`Next.enter_ca`, `Next.enter_run` and `Next.enter_done` tell from where a state is entered and with
which count.
-/

namespace HyperRam

open Clocked

/-- Outside `STATE_IDLE`. -/
def FsmState.busy (state : FsmState) : Bool :=
  state ≠ .idle

theorem FsmState.busy_iff {state : FsmState} : state.busy = true ↔ state ≠ .idle :=
  decide_eq_true_iff

theorem FsmState.busy_eq_false_iff {state : FsmState} : state.busy = false ↔ state = .idle := by
  simp [busy]

/-- What a clock in `STATE_CA` makes of the state, the counter `c` and the shift register `b`. -/
def caClock {n : ℕ} (c : ℕ) (b : Fin n → BitVec 16) (rwds : Bool) :
    FsmState × ℕ × (Fin n → BitVec 16) :=
  if c = 4 then (.run, 0, b)
  else if 0 < c ∧ c < 4 then (.ca, c + 1, shiftIn b 0)
  else if rwds then (.ca, 1, b)
  else (.ca, c, b)

/-- Three bits are enough for the counts that the source tests for in `STATE_CA`. -/
theorem toNat_caCount {w : ℕ} (hw : 3 ≤ w) (k : ℕ) (hk : k < 8) : (BitVec.ofNat w k).toNat = k := by
  have hpow : 2 ^ 3 ≤ 2 ^ w := Nat.pow_le_pow_right (by omega) hw
  rw [BitVec.toNat_ofNat, Nat.mod_eq_of_lt (by omega)]

/-- The tests of the source in `STATE_CA`, on a counter of `w` bits, make the clock `caClock` of
machines `f` shows the state, the counter and the shift register of. -/
theorem caClock_eq {σ : Type*} {n w : ℕ} (hw : 3 ≤ w) {c : BitVec w} {b : Fin n → BitVec 16}
    {rwds : Bool} {f : σ → FsmState × ℕ × (Fin n → BitVec 16)} {leave shift go wait : σ}
    (hleave : f leave = (.run, 0, b)) (hshift : f shift = (.ca, (c + 1).toNat, shiftIn b 0))
    (hgo : f go = (.ca, 1, b)) (hwait : f wait = (.ca, c.toNat, b)) :
    f (if c = 4 then leave else if 0 < c ∧ c < 4 then shift else if rwds then go else wait) =
      caClock c.toNat b rwds := by
  have hpow : 2 ^ 3 ≤ 2 ^ w := Nat.pow_le_pow_right (by omega) hw
  have h0 : (0 : BitVec w).toNat = 0 := toNat_caCount hw 0 (by omega)
  have h1 : (1 : BitVec w).toNat = 1 := toNat_caCount hw 1 (by omega)
  have h4 : (4 : BitVec w).toNat = 4 := toNat_caCount hw 4 (by omega)
  have hend : c = 4 ↔ c.toNat = 4 := by rw [← BitVec.toNat_inj, h4]
  have htest : 0 < c ∧ c < 4 ↔ 0 < c.toNat ∧ c.toNat < 4 := by
    rw [BitVec.lt_def, BitVec.lt_def, h0, h4]
  unfold caClock
  simp only [hend, htest]
  split_ifs with hc hlt
  · exact hleave
  · have hnext : (c + 1).toNat = c.toNat + 1 := by
      rw [BitVec.toNat_add, h1, Nat.mod_eq_of_lt (by omega)]
    rw [hshift, hnext]
  · exact hgo
  · exact hwait

/-- A bus machine with `n` data words behind its command. -/
structure BusStm (n : ℕ) where
  state : FsmState
  counter : ℕ
  bufferOut : Fin (n + 3) → BitVec 16
  stmEnd : Bool
  csn : Bool
  oe : Bool
  oeClk : Bool

namespace BusStm

variable {n : ℕ}

/-- The three words that go out next. -/
def words (m : BusStm n) : Fin 3 → BitVec 16 :=
  fun k => m.bufferOut (k.castLE (Nat.le_add_left 3 n))

/-- `STATE_CA` before `rwds` went up. -/
def Waits (m : BusStm n) : Prop :=
  m.state = .ca ∧ m.counter = 0

instance (m : BusStm n) : Decidable m.Waits :=
  inferInstanceAs (Decidable (_ ∧ _))

/-- What holds of a bus machine in every cycle, the counter in `STATE_RUN` at most `last` : the
outputs follow the state and the counter. -/
structure Inv (last : ℕ) (m : BusStm n) : Prop where
  csn : m.csn = false ↔ m.state = .ca ∨ m.state = .run
  oe : m.state = .idle ∨ m.state = .ca → (m.oe = true ↔ m.state = .ca ∧ m.counter ≠ 0)
  oeClk : m.state = .ca → (m.oeClk = true ↔ 1 < m.counter)
  ca_le : m.state = .ca → m.counter ≤ 4
  run_le : m.state = .run → m.counter ≤ last
  stmEnd : m.state ≠ .idle → (m.stmEnd = true ↔ m.state = .done)

/-- One clock without a reset. -/
structure Next (last : ℕ) (start rwds : Bool) (casig : BitVec 48) (m m' : BusStm n) : Prop where
  idle : m.state = .idle → m'.state = (if start then .ca else .idle) ∧ m'.counter = 0 ∧
    m'.stmEnd = false ∧ m'.words = caWords casig
  ca : m.state = .ca → (m'.state, m'.counter, m'.bufferOut) = caClock m.counter m.bufferOut rwds
  run : m.state = .run → m.counter ≠ last → m'.state = .run ∧ m'.counter = m.counter + 1
  last : m.state = .run → m.counter = last → m'.state = .done
  done : m.state = .done → m'.state = .idle ∧ m'.counter = m.counter

/-- Clocks until the master takes `stm_end`, with `rwds` high. -/
def left (last : ℕ) (m : BusStm n) : ℕ :=
  match m.state with
  | .idle => last + 8
  | .ca => last + 7 - m.counter
  | .run => last + 2 - m.counter
  | .done => 1

variable {last : ℕ} {start rwds : Bool} {casig : BitVec 48} {m m' : BusStm n}

/-! ### Counter registers -/

section bits

variable {w : ℕ} {c c' k : BitVec w} (hw : 3 ≤ w) (hc : m.counter = c.toNat) (hk : k.toNat = last)
include hw hc hk

/-- The invariant of a machine whose counter is the register `c`. -/
theorem Inv.of_bits (csn : m.csn = false ↔ m.state = .ca ∨ m.state = .run)
    (oe : m.state = .idle ∨ m.state = .ca → (m.oe = true ↔ m.state = .ca ∧ c ≠ 0))
    (oeClk : m.state = .ca → (m.oeClk = true ↔ 1 < c)) (ca_le : m.state = .ca → c ≤ 4)
    (run_le : m.state = .run → c ≤ k)
    (stmEnd : m.state ≠ .idle → (m.stmEnd = true ↔ m.state = .done)) : m.Inv last where
  csn := csn
  oe hs := by
    have h0 : (0 : BitVec w).toNat = 0 := toNat_caCount hw 0 (by omega)
    rw [oe hs, hc, Ne, ← BitVec.toNat_inj, h0]
  oeClk hs := by
    have h1 : (1 : BitVec w).toNat = 1 := toNat_caCount hw 1 (by omega)
    rw [oeClk hs, hc, BitVec.lt_def, h1]
  ca_le hs := by
    have h4 : (4 : BitVec w).toNat = 4 := toNat_caCount hw 4 (by omega)
    have hle := ca_le hs
    rwa [BitVec.le_def, h4, ← hc] at hle
  run_le hs := by
    have hle := run_le hs
    rwa [BitVec.le_def, hk, ← hc] at hle
  stmEnd := stmEnd

/-- A clock of a machine whose counter is the register `c`, with room for one more than the last
count. -/
theorem Next.of_bits (hc' : m'.counter = c'.toNat) (hroom : last + 1 < 2 ^ w) (h : m.Inv last)
    (idle : m.state = .idle → m'.state = (if start then .ca else .idle) ∧ c' = 0 ∧
      m'.stmEnd = false ∧ m'.words = caWords casig)
    (ca : m.state = .ca → (m'.state, m'.counter, m'.bufferOut) = caClock c.toNat m.bufferOut rwds)
    (run : m.state = .run → c ≠ k → m'.state = .run ∧ c' = c + 1)
    (leave : m.state = .run → c = k → m'.state = .done)
    (done : m.state = .done → m'.state = .idle ∧ c' = c) : m.Next last start rwds casig m' where
  idle hs := by
    obtain ⟨hst, rfl, hrest⟩ := idle hs
    exact ⟨hst, hc'.trans (toNat_caCount hw 0 (by omega)), hrest⟩
  ca hs := by rw [ca hs, hc]
  run hs hne := by
    obtain ⟨hst, rfl⟩ := run hs fun he => hne (by rw [hc, he, hk])
    have h1 : (1 : BitVec w).toNat = 1 := toNat_caCount hw 1 (by omega)
    have hle := h.run_le hs
    refine ⟨hst, ?_⟩
    rw [hc', BitVec.toNat_add, h1, ← hc, Nat.mod_eq_of_lt (by omega)]
  last hs he := leave hs (BitVec.eq_of_toNat_eq (by rw [← hc, he, hk]))
  done hs := by
    obtain ⟨hst, rfl⟩ := done hs
    exact ⟨hst, hc'.trans hc.symm⟩

end bits

/-! ### The clocks that are left -/

theorem left_of_idle (hs : m.state = .idle) : m.left last = last + 8 := by
  simp [left, hs]

theorem left_of_done (hs : m.state = .done) : m.left last = 1 := by
  simp [left, hs]

theorem left_le (last : ℕ) (m : BusStm n) : m.left last ≤ last + 8 := by
  unfold left
  split <;> omega

namespace Inv

variable (h : m.Inv last)
include h

/-- A raised `stm_end` at work is `STATE_DONE`. -/
theorem done_of_stmEnd (hb : m.state ≠ .idle) (he : m.stmEnd = true) : m.state = .done :=
  (h.stmEnd hb).1 he

theorem not_stmEnd (hb : m.state ≠ .idle) (hd : m.state ≠ .done) : m.stmEnd = false :=
  Bool.eq_false_iff.2 fun he => hd (h.done_of_stmEnd hb he)

/-- The chip is selected in the states between `STATE_IDLE` and `STATE_DONE`. -/
theorem csn_iff : m.csn = false ↔ m.state ≠ .idle ∧ m.state ≠ .done := by
  rw [h.csn]
  cases m.state <;> simp

/-- The clocks that are left tell the clock of `STATE_RUN`. -/
theorem run_of_left (h2 : 2 ≤ m.left last) (hl : m.left last ≤ last + 2) :
    m.state = .run ∧ m.counter + m.left last = last + 2 := by
  unfold left at h2 hl ⊢
  cases hs : m.state <;> simp only [hs] at h2 hl ⊢
  case idle => omega
  case ca =>
    have := h.ca_le hs
    omega
  case run =>
    have := h.run_le hs
    exact ⟨trivial, by omega⟩
  case done => omega

/-- One clock is left in `STATE_DONE` only. -/
theorem left_eq_one_iff : m.left last = 1 ↔ m.state = .done := by
  refine ⟨fun hl => ?_, left_of_done⟩
  unfold left at hl
  cases hs : m.state <;> simp only [hs] at hl
  case idle => omega
  case ca =>
    have := h.ca_le hs
    omega
  case run =>
    have := h.run_le hs
    omega
  case done => rfl

end Inv

namespace Next

variable (hn : m.Next last start rwds casig m')
include hn

/-! ### The clocks of `STATE_CA` -/

section ca

variable (hs : m.state = .ca)
include hs

theorem wait (hc : m.counter = 0) (hw : rwds = false) :
    m'.state = .ca ∧ m'.counter = 0 ∧ m'.bufferOut = m.bufferOut := by
  simpa [caClock, hc, hw] using hn.ca hs

theorem go (hc : m.counter = 0) (hw : rwds = true) :
    m'.state = .ca ∧ m'.counter = 1 ∧ m'.bufferOut = m.bufferOut := by
  simpa [caClock, hc, hw] using hn.ca hs

theorem shift (h0 : 0 < m.counter) (h4 : m.counter < 4) :
    m'.state = .ca ∧ m'.counter = m.counter + 1 ∧ m'.bufferOut = shiftIn m.bufferOut 0 := by
  simpa [caClock, h0, h4, h4.ne] using hn.ca hs

theorem leave (hc : m.counter = 4) :
    m'.state = .run ∧ m'.counter = 0 ∧ m'.bufferOut = m.bufferOut := by
  simpa [caClock, hc] using hn.ca hs

/-- A clock stays in `STATE_CA` or goes on to `STATE_RUN`. -/
theorem ca_cases (h : m.Inv last) : m'.state = .ca ∨ m'.state = .run := by
  rcases Nat.eq_zero_or_pos m.counter with h0 | hpos
  · cases rwds
    · exact .inl (hn.wait hs h0 rfl).1
    · exact .inl (hn.go hs h0 rfl).1
  · rcases Nat.lt_or_ge m.counter 4 with h4 | h4
    · exact .inl (hn.shift hs hpos h4).1
    · exact .inr (hn.leave hs (Nat.le_antisymm (h.ca_le hs) h4)).1

end ca

/-! ### What is left -/

/-- While `rwds` stays low a waiting machine stays where it is. -/
theorem waits (hw : m.Waits) (hrw : rwds = false) : m'.Waits :=
  ⟨(hn.wait hw.1 hw.2 hrw).1, (hn.wait hw.1 hw.2 hrw).2.1⟩

/-- A clock that is not spent waiting leaves one clock less. -/
theorem left_step (h : m.Inv last) (hw : m.Waits → rwds = true)
    (hi : m.state = .idle → start = true) (hd : m.state ≠ .done) :
    m'.left last + 1 = m.left last := by
  unfold left
  cases hs : m.state
  case idle =>
    obtain ⟨hst, hc, -⟩ := hn.idle hs
    simp [hst, hi hs, hc]
  case ca =>
    have hle := h.ca_le hs
    rcases Nat.eq_zero_or_pos m.counter with h0 | hpos
    · obtain ⟨hst, hc, -⟩ := hn.go hs h0 (hw ⟨hs, h0⟩)
      simp only [hst, hc, h0]
      omega
    · rcases Nat.lt_or_ge m.counter 4 with h4 | h4
      · obtain ⟨hst, hc, -⟩ := hn.shift hs hpos h4
        simp only [hst, hc]
        omega
      · obtain ⟨hst, hc, -⟩ := hn.leave hs (Nat.le_antisymm hle h4)
        simp only [hst, hc]
        omega
  case run =>
    have hle := h.run_le hs
    by_cases hl : m.counter = last
    · simp only [hn.last hs hl]
      omega
    · obtain ⟨hst, hc⟩ := hn.run hs hl
      simp only [hst, hc]
      omega
  case done => exact absurd hs hd

/-- Without a start the machine stays in `STATE_IDLE`. -/
theorem rest (hs : m.state = .idle) (hst : start = false) : m'.state = .idle := by
  simpa [hst] using (hn.idle hs).1

/-- A machine at work without `stm_end` stays at work. -/
theorem work (h : m.Inv last) (hb : m.state ≠ .idle) (he : m.stmEnd = false) :
    m'.state ≠ .idle := by
  cases hs : m.state
  case idle => exact absurd hs hb
  case ca => rcases hn.ca_cases hs h with hst | hst <;> simp [hst]
  case run =>
    by_cases hl : m.counter = last
    · simp [hn.last hs hl]
    · simp [(hn.run hs hl).1]
  case done => simpa [he, hs] using h.stmEnd hb

/-- A bus machine serves the handshake. -/
theorem server (h : m.Inv last) : Server start m.state.busy m.stmEnd m'.state.busy m'.stmEnd where
  accept hb := by
    rw [(hn.idle (FsmState.busy_eq_false_iff.1 hb)).1]
    cases start <;> rfl
  clear hb := (hn.idle (FsmState.busy_eq_false_iff.1 hb)).2.2.1
  work hb he := FsmState.busy_iff.2 (hn.work h (FsmState.busy_iff.1 hb) he)
  finish hb he := FsmState.busy_eq_false_iff.2
    (hn.done (h.done_of_stmEnd (FsmState.busy_iff.1 hb) he)).1

/-! ### Ways into the states -/

/-- `STATE_CA` begins with the counter at 0. -/
theorem enter_ca (hs : m.state ≠ .ca) (hs' : m'.state = .ca) :
    m'.counter = 0 := by
  cases hst : m.state
  case idle => exact (hn.idle hst).2.1
  case ca => exact absurd hst hs
  case run =>
    by_cases hl : m.counter = last
    · simp [hn.last hst hl] at hs'
    · simp [(hn.run hst hl).1] at hs'
  case done => simp [(hn.done hst).1] at hs'

/-- `STATE_RUN` begins with the counter at 0. -/
theorem enter_run (h : m.Inv last) (hs : m.state ≠ .run) (hs' : m'.state = .run) :
    m'.counter = 0 := by
  cases hst : m.state
  case idle =>
    rw [(hn.idle hst).1] at hs'
    split_ifs at hs'
  case ca =>
    rcases Nat.lt_or_ge m.counter 4 with h4 | h4
    · rcases Nat.eq_zero_or_pos m.counter with h0 | hpos
      · cases hrw : rwds
        · simp [(hn.wait hst h0 hrw).1] at hs'
        · simp [(hn.go hst h0 hrw).1] at hs'
      · simp [(hn.shift hst hpos h4).1] at hs'
    · exact (hn.leave hst (Nat.le_antisymm (h.ca_le hst) h4)).2.1
  case run => exact absurd hst hs
  case done => simp [(hn.done hst).1] at hs'

/-- `STATE_DONE` is entered from the last clock of `STATE_RUN`. -/
theorem enter_done (h : m.Inv last) (hs' : m'.state = .done) :
    m.state = .run ∧ m.counter = last := by
  cases hst : m.state
  case idle =>
    rw [(hn.idle hst).1] at hs'
    split_ifs at hs'
  case ca => rcases hn.ca_cases hst h with hst' | hst' <;> simp [hst'] at hs'
  case run =>
    by_cases hl : m.counter = last
    · exact ⟨rfl, hl⟩
    · simp [(hn.run hst hl).1] at hs'
  case done => simp [(hn.done hst).1] at hs'

end Next

end BusStm

/-- The machine `step` of the source with its inputs does the clocks of a bus machine, seen through
`bus`, as long as `Inv` holds. -/
structure IsBusStm {σ ι : Type*} {n : ℕ} (last : ℕ) (step : σ → ι → σ) (rst start rwds : ι → Bool)
    (casig : ι → BitVec 48) (bus : σ → BusStm n) (Inv : σ → Prop) : Prop where
  inv_reset : ∀ m i, rst i = true → Inv (step m i)
  inv_step : ∀ m i, Inv m → Inv (step m i)
  inv : ∀ m, Inv m → (bus m).Inv last
  reset : ∀ m i, rst i = true → (bus (step m i)).state = .idle ∧ (bus (step m i)).counter = 0
  next : ∀ m i, Inv m → rst i = false →
    (bus m).Next last (start i) (rwds i) (casig i) (bus (step m i))

end HyperRam
