import HyperRam.Clocked.Events
import HyperRam.Clocked.Run
import HyperRam.Clocked.Shift
import HyperRam.AddrDecode

/-!
# The boot top

`bootup` is the first of the tops : one state machine between probes and pads, without a wait for
`rwds`. `SET_CA` sends the command and then looks at the request lines once more, every fourth
cycle, to find out which request it was for. `MEM_WR1` and `MEM_RD1` are declared only, and
`MEM_WR0` has no branch of its own.

The definitions follow the branches of the source, later assignments over earlier ones. `Inv` says
what the counter and the output enable can be in each state, and under it each state has two step
lemmas, one for a clock that counts on and one for the clock that leaves (`step_setCa` and
`step_setCa_last`, and so on). `Inv.step` and all that follows is a case split over these.

* what the pads carry under `oe` : the command of each request and a zero, or the command, the
  register data and two zeros (`Bootup.driven_eq_issued`). The shift register is a queue of words
  that are owed, a clock under `oe` pays one of them out (`Inv.owed_issued`);
* when a request that has left `HR_IDLE` is back (`Bootup.back_iff`), and that it may never be : a
  request line that is up at none of the looks leaves the machine in `SET_CA`;
* when the chip is deselected between two requests (`Bootup.released_iff`);
* what the probe shows (`Bootup.dataoutReg_eq`).
-/

namespace HyperRam

open Clocked

/-- `state_t` of `bootup`. -/
inductive BootState
  | idle
  | setCa
  | rdReg0
  | wrReg0
  | memWr0
  | memWr1
  | memRd0
  | memRd1
  deriving DecidableEq, Repr

/-- The read states. -/
@[simp] def BootState.IsRead (s : BootState) : Prop :=
  s = .rdReg0 ∨ s = .memRd0

instance (s : BootState) : Decidable s.IsRead :=
  inferInstanceAs (Decidable (s = .rdReg0 ∨ s = .memRd0))

/-- Inputs of `bootup` : the probe sources and the halfword on the pads. -/
structure BootIn where
  rst : Bool
  regr : Bool
  regw : Bool
  memr : Bool
  memw : Bool
  caSig : BitVec 48
  regdata : BitVec 16
  dataout : BitVec 16

/-- Registers of `bootup`. -/
structure Bootup where
  state : BootState
  csNeg : Bool
  counter : BitVec 5
  oe : Bool
  dataoutReg : BitVec 16
  bufferOut : Fin 16 → BitVec 16
  prevRegw : Bool
  prevRegr : Bool

namespace Bootup

/-- `buffer_out[0..]` takes the words, the rest stays. -/
def load (b : Fin 16 → BitVec 16) (ws : List (BitVec 16)) : Fin 16 → BitVec 16 :=
  fun k => ws.getD k.val (b k)

/-- `buffer_out[0..n-1]` shifts and takes a zero in, the rest stays. -/
def shiftFirst (n : ℕ) (b : Fin 16 → BitVec 16) : Fin 16 → BitVec 16 :=
  fun k => if k.val + 1 < n then shiftIn b 0 k else if k.val + 1 = n then 0 else b k

variable (m : Bootup)

/-- A request starts : chip select goes down in the state `s`, with the words `ws` to send. -/
def start (s : BootState) (ws : List (BitVec 16)) : Bootup :=
  { m with state := s, csNeg := false, oe := true, bufferOut := load m.bufferOut ws }

/-- `HR_IDLE`. Register writes act on the rising edge, and `prev_regr` never rises. The later
assignment wins. -/
def idle (i : BootIn) : Bootup :=
  let ca := List.ofFn (caWords i.caSig)
  let m' := { m with csNeg := true }
  let m' := if (i.regr && !m.prevRegr) || i.memw || i.memr then m'.start .setCa ca else m'
  if i.regw && !m.prevRegw then m'.start .wrReg0 (ca ++ [i.regdata]) else m'

/-- `SET_CA`. Without a request the state stays. -/
def setCa (i : BootIn) : Bootup :=
  if m.counter = 3 then
    { m with
      csNeg := false, counter := 0, oe := false
      state :=
        if i.regr then .rdReg0
        else if i.memw then .memWr0
        else if i.memr then .memRd0
        else m.state }
  else
    { m with csNeg := false, bufferOut := shiftFirst 3 m.bufferOut, counter := m.counter + 1 }

/-- `RD_REG0` and `MEM_RD0`. -/
def read (i : BootIn) : Bootup :=
  if m.counter = 15 then
    { m with counter := 0, state := .idle, dataoutReg := i.dataout }
  else
    { m with counter := m.counter + 1 }

/-- `WR_REG0`. -/
def wrReg0 : Bootup :=
  if m.counter = 5 then
    { m with csNeg := false, counter := 0, oe := false, state := .idle }
  else
    { m with csNeg := false, bufferOut := shiftFirst 4 m.bufferOut, counter := m.counter + 1 }

/-- One clock. Resets lower `CSNeg`. -/
def step (i : BootIn) : Bootup :=
  if i.rst then
    { state := .idle, csNeg := false, counter := 0, oe := false, dataoutReg := 0,
      bufferOut := fun _ => 0, prevRegw := false, prevRegr := false }
  else
    let m' :=
      match m.state with
      | .idle => m.idle i
      | .setCa => m.setCa i
      | .memRd0 | .rdReg0 => m.read i
      | .wrReg0 => m.wrReg0
      | .memWr0 | .memWr1 | .memRd1 => { m with state := .idle }
    { m' with prevRegw := i.regw }

/-- `buffer_out` has a first word. -/
theorem buffer_pos : 0 < 16 := by decide

/-- The data of the pads. -/
def datain : BitVec 16 :=
  m.bufferOut ⟨0, buffer_pos⟩

/-! ## Steps -/

/-- Register `j` of the first `n`, then zeros. -/
def word (n : ℕ) (b : Fin 16 → BitVec 16) (j : ℕ) : BitVec 16 :=
  if h : j < 16 then if j < n then b ⟨j, h⟩ else 0 else 0

theorem word_shiftFirst {n : ℕ} (hn : n ≤ 16) (b : Fin 16 → BitVec 16) (j : ℕ) :
    word n (shiftFirst n b) j = word n b (j + 1) := by
  unfold word
  by_cases hj : j + 1 < 16
  · rw [dif_pos (by omega : j < 16), dif_pos hj]
    simp only [shiftFirst]
    split_ifs <;> first | rfl | omega | exact shiftIn_of_lt hj
  · rw [dif_neg hj]
    split_ifs
    · simp only [shiftFirst]
      split_ifs <;> first | rfl | omega
    · rfl
    · rfl

variable {m} {i : BootIn}

/-- What holds of the registers from the first reset on. -/
structure Inv (m : Bootup) : Prop where
  rest : m.state = .idle ∨ m.state = .memWr0 → m.oe = false ∧ m.counter = 0
  setCa : m.state = .setCa → m.counter.toNat ≤ 3
  read : m.state.IsRead → m.oe = false ∧ m.counter.toNat ≤ 15
  wrReg0 : m.state = .wrReg0 → m.oe = true ∧ m.counter.toNat ≤ 5
  reached : m.state ≠ .memWr1 ∧ m.state ≠ .memRd1
  prevRegr : m.prevRegr = false

/-- A request line that `SET_CA` looks at is up. -/
def asks (i : BootIn) : Bool :=
  i.regr || i.memw || i.memr

/-- A register write is requested. -/
def writes (m : Bootup) (i : BootIn) : Bool :=
  i.regw && !m.prevRegw

/-- The state after `SET_CA` has looked. -/
def decided (i : BootIn) : BootState :=
  if i.regr then .rdReg0 else if i.memw then .memWr0 else if i.memr then .memRd0 else .setCa

theorem inv_reset (hr : i.rst = true) : (m.step i).Inv := by
  simp only [step, hr, if_true]
  exact ⟨fun _ => ⟨rfl, rfl⟩, nofun, nofun, nofun, ⟨nofun, nofun⟩, rfl⟩

section step

variable (hr : i.rst = false)
include hr

omit hr in
theorem Inv.asks_eq (h : m.Inv) : ((i.regr && !m.prevRegr) || i.memw || i.memr) = asks i := by
  simp [asks, h.prevRegr]

omit hr in
theorem writes_eq : (i.regw && !m.prevRegw) = m.writes i :=
  rfl

theorem step_idle (h : m.Inv) (hs : m.state = .idle) :
    (m.step i).counter = 0 ∧ (m.step i).dataoutReg = m.dataoutReg ∧
      (m.step i).prevRegr = false ∧
      (m.step i).state = (if m.writes i then .wrReg0 else if asks i then .setCa else .idle) ∧
      (m.step i).oe = (m.writes i || asks i) := by
  obtain ⟨hoe, hc⟩ := h.rest (.inl hs)
  simp only [step, hr, hs, idle, h.asks_eq, start]
  cases ha : asks i <;> cases hw : m.writes i <;> simp [writes_eq, hw, hoe, hc, h.prevRegr]

/-- What a request loads. -/
theorem step_bufferOut (h : m.Inv) (hs : m.state = .idle) :
    (m.writes i = true → ∃ b, (m.step i).bufferOut =
      load b (List.ofFn (caWords i.caSig) ++ [i.regdata])) ∧
    (m.writes i = false → asks i = true → (m.step i).bufferOut =
      load m.bufferOut (List.ofFn (caWords i.caSig))) := by
  simp only [step, hr, hs, idle, h.asks_eq, start]
  refine ⟨fun hw => ?_, fun hw ha => ?_⟩
  · cases ha : asks i <;> simp [writes_eq, hw] <;> exact ⟨_, rfl⟩
  · simp [writes_eq, hw, ha]

theorem step_setCa (hs : m.state = .setCa) (hc : m.counter.toNat < 3) :
    (m.step i).state = .setCa ∧ (m.step i).counter.toNat = m.counter.toNat + 1 ∧
      (m.step i).oe = m.oe ∧ (m.step i).bufferOut = shiftFirst 3 m.bufferOut ∧
      (m.step i).dataoutReg = m.dataoutReg ∧ (m.step i).prevRegr = m.prevRegr := by
  have h3 : m.counter ≠ 3 := by bv_omega
  have hnext : (m.counter + 1).toNat = m.counter.toNat + 1 := by bv_omega
  simp only [step, hr, hs, setCa, if_neg h3, hnext, Bool.false_eq_true, if_false, and_self]

theorem step_setCa_last (hs : m.state = .setCa) (hc : m.counter = 3) :
    (m.step i).state = decided i ∧ (m.step i).counter = 0 ∧ (m.step i).oe = false ∧
      (m.step i).dataoutReg = m.dataoutReg ∧ (m.step i).prevRegr = m.prevRegr := by
  simp [step, hr, hs, setCa, hc, decided]

theorem step_read (hs : m.state.IsRead) (hc : m.counter.toNat < 15) :
    (m.step i).state = m.state ∧ (m.step i).counter.toNat = m.counter.toNat + 1 ∧
      (m.step i).oe = m.oe ∧ (m.step i).dataoutReg = m.dataoutReg ∧
      (m.step i).prevRegr = m.prevRegr := by
  have h15 : m.counter ≠ 15 := by bv_omega
  have hnext : (m.counter + 1).toNat = m.counter.toNat + 1 := by bv_omega
  rcases hs with hs | hs <;>
    simp only [step, hr, hs, read, if_neg h15, hnext, Bool.false_eq_true, if_false, and_self]

theorem step_read_last (hs : m.state.IsRead) (hc : m.counter = 15) :
    (m.step i).state = .idle ∧ (m.step i).counter = 0 ∧ (m.step i).oe = m.oe ∧
      (m.step i).dataoutReg = i.dataout ∧ (m.step i).prevRegr = m.prevRegr := by
  rcases hs with hs | hs <;> simp [step, hr, hs, read, hc]

theorem step_wrReg0 (hs : m.state = .wrReg0) (hc : m.counter.toNat < 5) :
    (m.step i).state = .wrReg0 ∧ (m.step i).counter.toNat = m.counter.toNat + 1 ∧
      (m.step i).oe = m.oe ∧ (m.step i).bufferOut = shiftFirst 4 m.bufferOut ∧
      (m.step i).dataoutReg = m.dataoutReg ∧ (m.step i).prevRegr = m.prevRegr := by
  have h5 : m.counter ≠ 5 := by bv_omega
  have hnext : (m.counter + 1).toNat = m.counter.toNat + 1 := by bv_omega
  simp only [step, hr, hs, wrReg0, if_neg h5, hnext, Bool.false_eq_true, if_false, and_self]

theorem step_wrReg0_last (hs : m.state = .wrReg0) (hc : m.counter = 5) :
    (m.step i).state = .idle ∧ (m.step i).counter = 0 ∧ (m.step i).oe = false ∧
      (m.step i).dataoutReg = m.dataoutReg ∧ (m.step i).prevRegr = m.prevRegr := by
  simp [step, hr, hs, wrReg0, hc]

theorem step_memWr0 (hs : m.state = .memWr0) :
    (m.step i).state = .idle ∧ (m.step i).counter = m.counter ∧ (m.step i).oe = m.oe ∧
      (m.step i).dataoutReg = m.dataoutReg ∧ (m.step i).prevRegr = m.prevRegr := by
  simp [step, hr, hs]

end step

theorem decided_cases (i : BootIn) :
    decided i = .setCa ∧ asks i = false ∨ decided i = .memWr0 ∧ asks i = true ∨
      (decided i).IsRead ∧ asks i = true := by
  unfold decided asks
  split_ifs with hregr hmemw hmemr <;> simp [*]

/-- A state that rests, with the counter and the pads off. -/
theorem inv_of_rest (hs : m.state = .idle ∨ m.state = .memWr0) (hoe : m.oe = false)
    (hc : m.counter = 0) (hp : m.prevRegr = false) : m.Inv := by
  refine ⟨fun _ => ⟨hoe, hc⟩, ?_, ?_, ?_, ?_, hp⟩ <;> rcases hs with hs | hs <;> simp [hs]

theorem inv_of_setCa (hs : m.state = .setCa) (hc : m.counter.toNat ≤ 3)
    (hp : m.prevRegr = false) : m.Inv := by
  refine ⟨?_, fun _ => hc, ?_, ?_, ?_, hp⟩ <;> simp [hs]

theorem inv_of_read (hs : m.state.IsRead) (hoe : m.oe = false)
    (hc : m.counter.toNat ≤ 15) (hp : m.prevRegr = false) : m.Inv := by
  refine ⟨?_, ?_, fun _ => ⟨hoe, hc⟩, ?_, ?_, hp⟩ <;> rcases hs with hs | hs <;> simp [hs]

theorem inv_of_wrReg0 (hs : m.state = .wrReg0) (hoe : m.oe = true) (hc : m.counter.toNat ≤ 5)
    (hp : m.prevRegr = false) : m.Inv := by
  refine ⟨?_, ?_, ?_, fun _ => ⟨hoe, hc⟩, ?_, hp⟩ <;> simp [hs]

namespace Inv

variable (h : m.Inv) (hr : i.rst = false)
include h hr

theorem next_idle (hs : m.state = .idle) : (m.step i).Inv := by
  obtain ⟨hc, -, hp, hst, hoe⟩ := step_idle hr h hs
  cases hw : m.writes i
  case true =>
    exact inv_of_wrReg0 (by simpa [hw] using hst) (by simpa [hw] using hoe) (by simp [hc]) hp
  case false =>
    cases ha : asks i
    case true => exact inv_of_setCa (by simpa [hw, ha] using hst) (by simp [hc]) hp
    case false =>
      exact inv_of_rest (.inl (by simpa [hw, ha] using hst)) (by simpa [hw, ha] using hoe) hc hp

theorem next_setCa (hs : m.state = .setCa) : (m.step i).Inv := by
  have hle := h.setCa hs
  by_cases h3 : m.counter = 3
  · obtain ⟨hst, hc, hoe, -, hp⟩ := step_setCa_last hr hs h3
    rw [h.prevRegr] at hp
    rcases decided_cases i with ⟨hd, -⟩ | ⟨hd, -⟩ | ⟨hd, -⟩
    · exact inv_of_setCa (hst.trans hd) (by simp [hc]) hp
    · exact inv_of_rest (.inr (hst.trans hd)) hoe hc hp
    · exact inv_of_read (hd.imp hst.trans hst.trans) hoe (by simp [hc]) hp
  · obtain ⟨hst, hc, -, -, -, hp⟩ := step_setCa hr hs (by bv_omega)
    exact inv_of_setCa hst (by bv_omega) (hp.trans h.prevRegr)

theorem next_wrReg0 (hs : m.state = .wrReg0) : (m.step i).Inv := by
  obtain ⟨hoe, hle⟩ := h.wrReg0 hs
  by_cases h5 : m.counter = 5
  · obtain ⟨hst, hc, hoff, -, hp⟩ := step_wrReg0_last hr hs h5
    exact inv_of_rest (.inl hst) hoff hc (hp.trans h.prevRegr)
  · obtain ⟨hst, hc, hon, -, -, hp⟩ := step_wrReg0 hr hs (by bv_omega)
    exact inv_of_wrReg0 hst (hon.trans hoe) (by bv_omega) (hp.trans h.prevRegr)

theorem next_memWr0 (hs : m.state = .memWr0) : (m.step i).Inv := by
  obtain ⟨hoe, hzero⟩ := h.rest (.inr hs)
  obtain ⟨hst, hc, hoff, -, hp⟩ := step_memWr0 hr hs
  exact inv_of_rest (.inl hst) (hoff.trans hoe) (hc.trans hzero) (hp.trans h.prevRegr)

theorem next_read (hs : m.state.IsRead) : (m.step i).Inv := by
  obtain ⟨hoe, hle⟩ := h.read hs
  by_cases h15 : m.counter = 15
  · obtain ⟨hst, hc, hoff, -, hp⟩ := step_read_last hr hs h15
    exact inv_of_rest (.inl hst) (hoff.trans hoe) hc (hp.trans h.prevRegr)
  · obtain ⟨hst, hc, hoff, -, hp⟩ := step_read hr hs (by bv_omega)
    exact inv_of_read (hs.imp hst.trans hst.trans) (hoff.trans hoe) (by bv_omega)
      (hp.trans h.prevRegr)

end Inv

theorem Inv.step (h : m.Inv) (i : BootIn) : (m.step i).Inv := by
  cases hr : i.rst
  case true => exact inv_reset hr
  case false =>
    cases hs : m.state
    case idle => exact h.next_idle hr hs
    case setCa => exact h.next_setCa hr hs
    case wrReg0 => exact h.next_wrReg0 hr hs
    case memWr0 => exact h.next_memWr0 hr hs
    case memWr1 => exact absurd hs h.reached.1
    case memRd1 => exact absurd hs h.reached.2
    all_goals exact h.next_read hr (by simp [hs])

/-! ## What the pads carry -/

/-- The first `n` registers and then zeros, `last + 1` words in all, from the counter on. -/
def burst (m : Bootup) (n last : ℕ) : List (BitVec 16) :=
  (List.range (last + 1 - m.counter.toNat)).map (word n m.bufferOut)

/-- The words still to go out under `oe`. -/
def owed (m : Bootup) : List (BitVec 16) :=
  if m.oe then
    match m.state with
    | .setCa => m.burst 3 3
    | .wrReg0 => m.burst 4 5
    | _ => []
  else []

/-- The word under `oe`. -/
def driven (m : Bootup) : List (BitVec 16) :=
  if m.oe then [m.datain] else []

/-- The words that a request which leaves `HR_IDLE` is to send. -/
def issued (m : Bootup) (i : BootIn) : List (BitVec 16) :=
  let ca := List.ofFn (caWords i.caSig)
  if m.state = .idle then
    if m.writes i then ca ++ [i.regdata, 0, 0] else if asks i then ca ++ [0] else []
  else []

theorem word_zero {n : ℕ} (hn : 0 < n) : word n m.bufferOut 0 = m.datain := by
  simp [word, datain, hn]

theorem burst_last {n last : ℕ} (hn : 0 < n) (hc : m.counter.toNat = last) :
    m.burst n last = [m.datain] := by
  simp [burst, hc, word_zero hn]

theorem burst_shift {n last : ℕ} (hn : 0 < n) (hle : n ≤ 16) {m' : Bootup}
    (hc : m.counter.toNat < last) (hnext : m'.counter.toNat = m.counter.toNat + 1)
    (hb : m'.bufferOut = shiftFirst n m.bufferOut) :
    m.burst n last = m.datain :: m'.burst n last := by
  unfold burst
  rw [hnext, hb, show last + 1 - m.counter.toNat = last + 1 - (m.counter.toNat + 1) + 1 by omega,
    List.range_succ_eq_map, List.map_cons, List.map_map, word_zero hn]
  congr 2
  ext j : 1
  exact (word_shiftFirst hle _ _).symm

/-- Words just loaded go out with zeros behind them. -/
theorem burst_load {ws : List (BitVec 16)} {b : Fin 16 → BitVec 16} {last : ℕ}
    (hfits : ws.length ≤ 16) (hlast : ws.length ≤ last + 1) (hc : m.counter = 0)
    (hb : m.bufferOut = load b ws) :
    m.burst ws.length last = ws ++ List.replicate (last + 1 - ws.length) 0 := by
  refine List.ext_getElem (by simp [burst, hc]; omega) fun j hj hj' => ?_
  simp only [burst, List.getElem_map, List.getElem_range, List.getElem_append, word, hb, load]
  split_ifs with h16 hlt
  · simp [hlt]
  · rw [List.getElem_replicate]
  · omega
  · rw [List.getElem_replicate]

theorem owed_off (hoe : m.oe = false) : m.owed = [] := by
  simp [owed, hoe]

theorem driven_off (hoe : m.oe = false) : m.driven = [] := by
  simp [driven, hoe]

theorem driven_on (hoe : m.oe = true) : m.driven = [m.datain] := by
  simp [driven, hoe]

theorem owed_setCa (hs : m.state = .setCa) (hoe : m.oe = true) : m.owed = m.burst 3 3 := by
  simp [owed, hoe, hs]

theorem owed_wrReg0 (hs : m.state = .wrReg0) (hoe : m.oe = true) : m.owed = m.burst 4 5 := by
  simp [owed, hoe, hs]

theorem issued_busy (hs : m.state ≠ .idle) : m.issued i = [] :=
  if_neg hs

/-- `HR_IDLE` takes the words in. -/
theorem Inv.issued_idle (h : m.Inv) (hr : i.rst = false) (hs : m.state = .idle) :
    m.issued i = (m.step i).owed := by
  obtain ⟨hc, -, -, hst, hoe⟩ := step_idle hr h hs
  have hloaded := step_bufferOut hr h hs
  unfold issued
  rw [if_pos hs]
  cases hw : m.writes i
  case true =>
    obtain ⟨b, hb⟩ := hloaded.1 hw
    simp only [hw, Bool.true_or, if_true] at hst hoe ⊢
    rw [owed_wrReg0 hst hoe]
    have hburst : (m.step i).burst 4 5 = _ ++ _ := burst_load (by simp) (by simp) hc hb
    rw [hburst]
    simp
  case false =>
    cases ha : asks i
    case true =>
      have hb := hloaded.2 hw ha
      simp only [hw, ha, Bool.false_or, Bool.false_eq_true, if_true, if_false] at hst hoe ⊢
      rw [owed_setCa hst hoe]
      have hburst : (m.step i).burst 3 3 = _ ++ _ := burst_load (by simp) (by simp) hc hb
      rw [hburst]
      simp
    case false =>
      simp only [hw, ha, Bool.false_or, Bool.false_eq_true, if_false] at hoe ⊢
      rw [owed_off hoe]

/-- One clock of `SET_CA` sends the next word. -/
theorem Inv.owed_setCa (h : m.Inv) (hr : i.rst = false) (hs : m.state = .setCa) :
    m.owed = m.driven ++ (m.step i).owed := by
  have hle := h.setCa hs
  cases hoe : m.oe
  case false =>
    have hoff : (m.step i).oe = false := by
      by_cases h3 : m.counter = 3
      · exact (step_setCa_last hr hs h3).2.2.1
      · exact (step_setCa hr hs (by bv_omega)).2.2.1.trans hoe
    rw [owed_off hoe, driven_off hoe, owed_off hoff, List.append_nil]
  case true =>
    rw [Bootup.owed_setCa hs hoe, driven_on hoe]
    by_cases h3 : m.counter = 3
    · rw [burst_last (by omega) (by simp [h3]), owed_off (step_setCa_last hr hs h3).2.2.1,
        List.append_nil]
    · obtain ⟨hst, hc, hon, hb, -, -⟩ := step_setCa hr hs (by bv_omega)
      rw [Bootup.owed_setCa hst (hon.trans hoe),
        burst_shift (by omega) (by omega) (by bv_omega) hc hb]
      rfl

/-- One clock of `WR_REG0` sends the next word. -/
theorem Inv.owed_wrReg0 (h : m.Inv) (hr : i.rst = false) (hs : m.state = .wrReg0) :
    m.owed = m.driven ++ (m.step i).owed := by
  obtain ⟨hoe, hle⟩ := h.wrReg0 hs
  rw [Bootup.owed_wrReg0 hs hoe, driven_on hoe]
  by_cases h5 : m.counter = 5
  · rw [burst_last (by omega) (by simp [h5]), owed_off (step_wrReg0_last hr hs h5).2.2.1,
      List.append_nil]
  · obtain ⟨hst, hc, hon, hb, -, -⟩ := step_wrReg0 hr hs (by bv_omega)
    rw [Bootup.owed_wrReg0 hst (hon.trans hoe),
      burst_shift (by omega) (by omega) (by bv_omega) hc hb]
    rfl

/-- One clock sends the next word of what is owed. -/
theorem Inv.owed_issued (h : m.Inv) (hr : i.rst = false) :
    m.owed ++ m.issued i = m.driven ++ (m.step i).owed := by
  cases hs : m.state
  case idle =>
    have hoff := (h.rest (.inl hs)).1
    rw [owed_off hoff, driven_off hoff, h.issued_idle hr hs]
  case setCa => rw [issued_busy (by simp [hs]), List.append_nil, h.owed_setCa hr hs]
  case wrReg0 => rw [issued_busy (by simp [hs]), List.append_nil, h.owed_wrReg0 hr hs]
  case memWr1 => exact absurd hs h.reached.1
  case memRd1 => exact absurd hs h.reached.2
  case memWr0 =>
    have hoff := (h.rest (.inr hs)).1
    have hnext : (m.step i).oe = false := (step_memWr0 hr hs).2.2.1.trans hoff
    rw [issued_busy (by simp [hs]), owed_off hoff, driven_off hoff, owed_off hnext]
  all_goals
    have hread : m.state.IsRead := by simp [hs]
    obtain ⟨hoff, hle⟩ := h.read hread
    have hnext : (m.step i).oe = false := by
      by_cases h15 : m.counter = 15
      · exact (step_read_last hr hread h15).2.2.1.trans hoff
      · exact (step_read hr hread (by bv_omega)).2.2.1.trans hoff
    rw [issued_busy (by simp [hs]), owed_off hoff, driven_off hoff, owed_off hnext]

/-! ## Runs -/

/-- The states after a reset clock. -/
abbrev Init : Bootup → Prop :=
  AfterReset step BootIn.rst

section run

variable (r : Run Init step)

theorem inv : ∀ t, (r.state t).Inv :=
  r.invariant_afterReset (fun _ _ hrst => inv_reset hrst) fun _ i h => h.step i

theorem init_idle : (r.state 0).state = .idle ∧ (r.state 0).oe = false ∧
    (r.state 0).dataoutReg = 0 := by
  obtain ⟨s₀, i, hrst, hs⟩ := r.start
  simp [hs, step, hrst]

variable {r} (hr : ∀ t, (r.input t).rst = false)
include hr

/-- `SET_CA` counts up to three over and over while no request is up in the cycles it looks. -/
theorem setCa_run {s : ℕ} (hs : (r.state s).state = .setCa) (hc : (r.state s).counter = 0) :
    ∀ n, (∀ j, 4 * j + 3 < n → asks (r.input (s + 4 * j + 3)) = false) →
      (r.state (s + n)).state = .setCa ∧ (r.state (s + n)).counter.toNat = n % 4
  | 0, _ => ⟨hs, by simp [hc]⟩
  | n + 1, hlook => by
    obtain ⟨hst, hcount⟩ := setCa_run hs hc n fun j hj => hlook j (by omega)
    by_cases h3 : n % 4 = 3
    · have hlast : ((r.state (s + n)).step (r.input (s + n))).state = _ ∧ _ :=
        step_setCa_last (hr _) hst (by bv_omega)
      rw [← r.clock] at hlast
      have hno : asks (r.input (s + n)) = false := by
        have hj := hlook (n / 4) (by omega)
        rwa [show s + 4 * (n / 4) + 3 = s + n by omega] at hj
      refine ⟨?_, by rw [← Nat.add_assoc, hlast.2.1]; simp; omega⟩
      rcases decided_cases (r.input (s + n)) with ⟨hd, -⟩ | ⟨-, ha⟩ | ⟨-, ha⟩
      · exact hlast.1.trans hd
      · exact absurd (hno.symm.trans ha) (by simp)
      · exact absurd (hno.symm.trans ha) (by simp)
    · have hstep : ((r.state (s + n)).step (r.input (s + n))).state = _ ∧ _ :=
        step_setCa (hr _) hst (by omega)
      rw [← r.clock] at hstep
      refine ⟨hstep.1, ?_⟩
      rw [← Nat.add_assoc, hstep.2.1]
      omega

/-- A read counts up to fifteen. -/
theorem read_run {s : ℕ} (hs : (r.state s).state.IsRead)
    (hc : (r.state s).counter = 0) :
    ∀ n ≤ 15, (r.state (s + n)).state = (r.state s).state ∧ (r.state (s + n)).counter.toNat = n
  | 0, _ => ⟨rfl, by simp [hc]⟩
  | n + 1, hn => by
    obtain ⟨hst, hcount⟩ := read_run hs hc n (by omega)
    have hstep : ((r.state (s + n)).step (r.input (s + n))).state = _ ∧ _ :=
      step_read (hr _) (by rwa [hst]) (by omega)
    rw [← r.clock] at hstep
    refine ⟨hstep.1.trans hst, ?_⟩
    rw [← Nat.add_assoc, hstep.2.1, hcount]

/-- A read is over on its sixteenth clock. -/
theorem read_done {s : ℕ} (hs : (r.state s).state.IsRead)
    (hc : (r.state s).counter = 0) : (r.state (s + 16)).state = .idle := by
  obtain ⟨hst, hcount⟩ := read_run hr hs hc 15 le_rfl
  have hlast : ((r.state (s + 15)).step (r.input (s + 15))).state = _ ∧ _ :=
    step_read_last (hr _) (by rwa [hst]) (by bv_omega)
  rw [← r.clock] at hlast
  exact hlast.1

end run

/-- The request that leaves `HR_IDLE` in cycle `a` is back in cycle `b`. -/
def Back (r : Run Init step) (a b : ℕ) : Prop :=
  (r.state b).state = .idle ∧ ∀ x, a < x → x < b → (r.state x).state ≠ .idle

/-- The clocks of a request after `SET_CA` has found it. -/
def rest (i : BootIn) : ℕ :=
  if decided i = .memWr0 then 1 else 16

theorem Back.unique {r : Run Init step} {a b c : ℕ} (hab : a < b) (hac : a < c)
    (hb : Back r a b) (hc : Back r a c) : b = c := by
  rcases Nat.lt_trichotomy b c with hlt | heq | hgt
  · exact absurd hb.1 (hc.2 b hab hlt)
  · exact heq
  · exact absurd hc.1 (hb.2 c hac hgt)

section run

variable {r : Run Init step} (hr : ∀ t, (r.input t).rst = false)
include hr

/-- A look that finds a request. -/
theorem setCa_found {s : ℕ} (hs : (r.state s).state = .setCa) (hc : (r.state s).counter = 3)
    (ha : asks (r.input s) = true) :
    (r.state (s + 1)).counter = 0 ∧ (r.state (s + 1)).state = decided (r.input s) ∧
      Back r s (s + 1 + rest (r.input s)) := by
  have hlast : ((r.state s).step (r.input s)).state = _ ∧ _ := step_setCa_last (hr s) hs hc
  rw [← r.clock] at hlast
  refine ⟨hlast.2.1, hlast.1, ?_⟩
  rcases decided_cases (r.input s) with ⟨-, hno⟩ | ⟨hd, -⟩ | ⟨hd, -⟩
  · exact absurd (hno.symm.trans ha) (by simp)
  · have hst := hlast.1.trans hd
    have hidle : ((r.state (s + 1)).step (r.input (s + 1))).state = _ ∧ _ :=
      step_memWr0 (hr _) hst
    rw [← r.clock] at hidle
    rw [rest, if_pos hd]
    refine ⟨hidle.1, fun x hx hxs => ?_⟩
    obtain rfl : x = s + 1 := by omega
    simp [hst]
  · have hne : decided (r.input s) ≠ .memWr0 := by rcases hd with hd | hd <;> simp [hd]
    have hst : (r.state (s + 1)).state.IsRead := by rwa [hlast.1]
    rw [rest, if_neg hne]
    refine ⟨read_done hr hst hlast.2.1, fun x hx hxs => ?_⟩
    obtain ⟨n, rfl⟩ := Nat.exists_eq_add_of_le (show s + 1 ≤ x by omega)
    rw [(read_run hr hst hlast.2.1 n (by omega)).1]
    rcases hst with hst | hst <;> simp [hst]

/-- A request that leaves `HR_IDLE` for `SET_CA` is back after the first look that finds one. -/
theorem back_of_found {a k : ℕ} (ha : (r.state a).state = .idle)
    (hgo : (r.state (a + 1)).state = .setCa)
    (hno : ∀ j < k, asks (r.input (a + 4 + 4 * j)) = false)
    (hfound : asks (r.input (a + 4 + 4 * k)) = true) :
    Back r a (a + 5 + 4 * k + rest (r.input (a + 4 + 4 * k))) := by
  have hzero : ((r.state a).step (r.input a)).counter = _ ∧ _ := step_idle (hr a) (inv r a) ha
  rw [← r.clock] at hzero
  have hrun : ∀ n ≤ 4 * k + 3, (r.state (a + 1 + n)).state = .setCa ∧
      (r.state (a + 1 + n)).counter.toNat = n % 4 := fun n hn =>
    setCa_run hr hgo hzero.1 n fun j hj => by
      rw [show a + 1 + 4 * j + 3 = a + 4 + 4 * j by omega]
      exact hno j (by omega)
  have hlook := hrun (4 * k + 3) le_rfl
  rw [show a + 1 + (4 * k + 3) = a + 4 + 4 * k by omega] at hlook
  have hback := (setCa_found hr hlook.1 (by bv_omega) hfound).2.2
  rw [show a + 4 + 4 * k + 1 = a + 5 + 4 * k by omega] at hback
  refine ⟨hback.1, fun x hx hxb => ?_⟩
  rcases Nat.lt_or_ge (a + 4 + 4 * k) x with hlt | hge
  · exact hback.2 x hlt hxb
  · obtain ⟨n, rfl⟩ := Nat.exists_eq_add_of_le (show a + 1 ≤ x by omega)
    simp [(hrun n (by omega)).1]

/-- Without such a look it stays in `SET_CA`. -/
theorem setCa_of_quiet {a : ℕ} (ha : (r.state a).state = .idle)
    (hgo : (r.state (a + 1)).state = .setCa)
    (hno : ∀ k, asks (r.input (a + 4 + 4 * k)) = false) {t : ℕ} (ht : a < t) :
    (r.state t).state = .setCa := by
  have hzero : ((r.state a).step (r.input a)).counter = _ ∧ _ := step_idle (hr a) (inv r a) ha
  rw [← r.clock] at hzero
  obtain ⟨n, rfl⟩ := Nat.exists_eq_add_of_le (show a + 1 ≤ t by omega)
  refine (setCa_run hr hgo hzero.1 n fun j _ => ?_).1
  rw [show a + 1 + 4 * j + 3 = a + 4 + 4 * j by omega]
  exact hno j

end run

/-- In a run of `bootup` without a further reset, a request that leaves `HR_IDLE` for `SET_CA` is
back in cycle `b` exactly if `b` comes `rest` clocks after the first look that finds a request
up. The looks are every fourth cycle, and without one that finds a request it is never back. -/
theorem back_iff (r : Run Init step) (hr : ∀ t, (r.input t).rst = false) {a b : ℕ} (hab : a < b)
    (ha : (r.state a).state = .idle) (hgo : (r.state (a + 1)).state = .setCa) :
    Back r a b ↔ ∃ k, (∀ j < k, asks (r.input (a + 4 + 4 * j)) = false) ∧
      asks (r.input (a + 4 + 4 * k)) = true ∧
        b = a + 5 + 4 * k + rest (r.input (a + 4 + 4 * k)) := by
  refine ⟨fun hb => ?_, ?_⟩
  · have hex : ∃ k, asks (r.input (a + 4 + 4 * k)) = true := by
      by_contra hnone
      have hstay := setCa_of_quiet hr ha hgo (fun k => Bool.eq_false_iff.2 fun hk =>
        hnone ⟨k, hk⟩) hab
      exact absurd (hb.1.symm.trans hstay) (by simp)
    have hno : ∀ j < Nat.find hex, asks (r.input (a + 4 + 4 * j)) = false := fun j hj =>
      Bool.eq_false_iff.2 (Nat.find_min hex hj)
    have hfound := Nat.find_spec hex
    exact ⟨Nat.find hex, hno, hfound,
      hb.unique hab (by omega) (back_of_found hr ha hgo hno hfound)⟩
  · rintro ⟨k, hno, hfound, rfl⟩
    exact back_of_found hr ha hgo hno hfound

/-- A register read in cycle `2` that only the second look finds, and a register write in cycle
`30`. The pads show the number of the cycle. -/
def readThenWrite (t : ℕ) : BootIn :=
  { rst := false, regr := decide (t = 2 ∨ t = 10), regw := decide (t = 30), memr := false,
    memw := false, caSig := 0x600001000000, regdata := 0x8fe7, dataout := BitVec.ofNat 16 t }

/-- The run of `readThenWrite` from a reset. -/
def bootRun : Run Init step :=
  Run.ofInputs (s := step ⟨.idle, true, 0, false, 0, fun _ => 0, false, false⟩
    { readThenWrite 0 with rst := true }) ⟨_, _, rfl, rfl⟩ readThenWrite

/-- The read of `readThenWrite` is back in cycle `27`. -/
theorem back_iff_bootRun : Back bootRun 2 27 :=
  (back_iff bootRun (fun _ => rfl) (by omega) (by decide +kernel) (by decide +kernel)).2
    ⟨1, by decide +kernel, by decide +kernel, by decide +kernel⟩

/-- In a run of `bootup` without a further reset, the words under `oe` are, once no request is
sending, those of the requests that have left `HR_IDLE`, in order : the three words of the
command and a zero, or, of a register write, the command, the register data and two zeros. -/
theorem driven_eq_issued (r : Run Init step) (hr : ∀ t, (r.input t).rst = false) {t : ℕ}
    (ht : (r.state t).oe = false) :
    log (fun u => (r.state u).driven) t = log (fun u => (r.state u).issued (r.input u)) t := by
  have hbalance := log_balance (f := fun u => (r.state u).driven) (d := fun u => (r.state u).owed)
    (owed_off (init_idle r).2.1) (fun u => by rw [r.clock]; exact (inv r u).owed_issued (hr u)) t
  rwa [owed_off ht, List.append_nil] at hbalance

/-- The two requests of `readThenWrite` send ten words. -/
theorem driven_eq_issued_bootRun : log (fun u => (bootRun.state u).driven) 40 =
    [0x6000, 0x0100, 0, 0, 0x6000, 0x0100, 0, 0x8fe7, 0, 0] := by
  rw [driven_eq_issued bootRun (fun _ => rfl) (by decide +kernel)]
  decide +kernel

/-! ## Chip select -/

section run

variable {r : Run Init step} (hr : ∀ t, (r.input t).rst = false)
include hr

end run

/-- `SET_CA` finds a read. -/
def Finds (m : Bootup) (i : BootIn) : Prop :=
  m.state = .setCa ∧ m.counter = 3 ∧ (decided i).IsRead

instance (m : Bootup) (i : BootIn) : Decidable (m.Finds i) :=
  inferInstanceAs (Decidable (m.state = .setCa ∧ m.counter = 3 ∧ (decided i).IsRead))

/-- Reads are entered from a look that finds one. -/
theorem Inv.finds_of_enters (h : m.Inv) (hr : i.rst = false) (hno : ¬m.state.IsRead)
    (hin : (m.step i).state.IsRead) : m.Finds i := by
  cases hs : m.state
  case idle =>
    obtain ⟨-, -, -, hst, -⟩ := step_idle hr h hs
    rw [hst] at hin
    split_ifs at hin <;> simp at hin
  case setCa =>
    by_cases h3 : m.counter = 3
    · rw [(step_setCa_last hr hs h3).1] at hin
      exact ⟨hs, h3, hin⟩
    · have hle := h.setCa hs
      rw [(step_setCa hr hs (by bv_omega)).1] at hin
      simp at hin
  case wrReg0 =>
    have hle := (h.wrReg0 hs).2
    by_cases h5 : m.counter = 5
    · rw [(step_wrReg0_last hr hs h5).1] at hin
      simp at hin
    · rw [(step_wrReg0 hr hs (by bv_omega)).1] at hin
      simp at hin
  case memWr0 =>
    rw [(step_memWr0 hr hs).1] at hin
    simp at hin
  case memWr1 => exact absurd hs h.reached.1
  case memRd1 => exact absurd hs h.reached.2
  all_goals exact absurd (by simp [hs]) hno

/-- The probe takes a halfword on the last clock of a read. -/
theorem Inv.step_dataoutReg (h : m.Inv) (hr : i.rst = false) :
    (m.step i).dataoutReg =
      if m.state.IsRead ∧ m.counter = 15 then i.dataout else m.dataoutReg := by
  cases hs : m.state
  case idle => simpa using (step_idle hr h hs).2.1
  case setCa =>
    by_cases h3 : m.counter = 3
    · simpa using (step_setCa_last hr hs h3).2.2.2.1
    · have hle := h.setCa hs
      simpa using (step_setCa hr hs (by bv_omega)).2.2.2.2.1
  case wrReg0 =>
    by_cases h5 : m.counter = 5
    · simpa using (step_wrReg0_last hr hs h5).2.2.2.1
    · have hle := (h.wrReg0 hs).2
      simpa using (step_wrReg0 hr hs (by bv_omega)).2.2.2.2.1
  case memWr0 => simpa using (step_memWr0 hr hs).2.2.2.1
  case memWr1 => exact absurd hs h.reached.1
  case memRd1 => exact absurd hs h.reached.2
  all_goals
    have hread : m.state.IsRead := by simp [hs]
    by_cases h15 : m.counter = 15
    · rw [(step_read_last hr hread h15).2.2.2.1, if_pos ⟨by simp, h15⟩]
    · have hle := (h.read hread).2
      rw [(step_read hr hread (by bv_omega)).2.2.2.1, if_neg fun hlast => h15 hlast.2]

/-- The halfword of cycle `t`, if `SET_CA` found a read sixteen cycles ago. -/
def answer (r : Run Init step) (t : ℕ) : List (BitVec 16) :=
  if 16 ≤ t ∧ (r.state (t - 16)).Finds (r.input (t - 16)) then [(r.input t).dataout] else []

section run

variable {r : Run Init step} (hr : ∀ t, (r.input t).rst = false)
include hr

/-- The read that a look finds. -/
theorem Finds.read {s : ℕ} (h : (r.state s).Finds (r.input s)) :
    (r.state (s + 1)).state.IsRead ∧ (r.state (s + 1)).counter = 0 := by
  have hlast : ((r.state s).step (r.input s)).state = _ ∧ _ :=
    step_setCa_last (hr s) h.1 h.2.1
  rw [← r.clock] at hlast
  exact ⟨by rw [hlast.1]; exact h.2.2, hlast.2.1⟩

/-- A read takes its halfword in the cycles with an answer. -/
theorem read_last_iff (t : ℕ) :
    (r.state t).state.IsRead ∧ (r.state t).counter = 15 ↔
      16 ≤ t ∧ (r.state (t - 16)).Finds (r.input (t - 16)) := by
  refine ⟨fun ⟨hst, hc⟩ => ?_, fun ⟨ht, hfinds⟩ => ?_⟩
  · obtain ⟨s, hst', hfinds, -, hin⟩ :=
      opened_by (p := fun u => (r.state u).state.IsRead)
        (q := fun u => (r.state u).Finds (r.input u))
        (by simp [(init_idle r).1])
        (fun u hno hnext => (inv r u).finds_of_enters (hr u) hno (by rwa [← r.clock])) t hst
    obtain ⟨hread, hzero⟩ := hfinds.read hr
    have hlt : t < s + 1 + 16 := by
      by_contra hge
      have hidle := read_done hr hread hzero
      have hbusy := hin (s + 1 + 16) (by omega) (by omega)
      simp [hidle] at hbusy
    obtain ⟨n, rfl⟩ := Nat.exists_eq_add_of_le (show s + 1 ≤ t by omega)
    have hcount := (read_run hr hread hzero n (by omega)).2
    obtain rfl : n = 15 := by bv_omega
    exact ⟨by omega, by simpa using hfinds⟩
  · obtain ⟨s, rfl⟩ := Nat.exists_eq_add_of_le' ht
    rw [Nat.add_sub_cancel] at hfinds
    obtain ⟨hread, hzero⟩ := hfinds.read hr
    obtain ⟨hst, hcount⟩ := read_run hr hread hzero 15 le_rfl
    rw [show s + 1 + 15 = s + 16 by omega] at hst hcount
    exact ⟨by rwa [hst], by bv_omega⟩

end run

/-- In a run of `bootup` without a further reset, the probe shows the halfword of the sixteenth
cycle after `SET_CA` found a read, of the last read that is over, or zero before the first. -/
theorem dataoutReg_eq (r : Run Init step) (hr : ∀ t, (r.input t).rst = false) :
    ∀ t, (r.state t).dataoutReg = (log (answer r) t).getLastD 0
  | 0 => (init_idle r).2.2
  | t + 1 => by
    rw [r.clock, (inv r t).step_dataoutReg (hr t), log_succ, answer]
    simp only [read_last_iff hr t]
    split_ifs with h
    · simp
    · rw [List.append_nil, dataoutReg_eq r hr t]

/-- The probe shows the halfword of cycle `26` after the read of `readThenWrite`. -/
theorem dataoutReg_eq_bootRun : (bootRun.state 40).dataoutReg = 26 := by
  rw [dataoutReg_eq bootRun fun _ => rfl]
  decide +kernel

end Bootup

end HyperRam
