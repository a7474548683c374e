import HyperRam.Device
import HyperRam.RwdsPad
import HyperRam.WriteBurst

/-!
# Transfers of the probed top

What a transaction of `topv2` does to the device. `dq`, the clock enable and `csn` go to the pads
from the registers of the state machine, without the output registers of the controller in
between. So the stages of a command are those of the controller one clock later, and `Command`
is its progress here too (`PadsSafe.command_step`). The first word is on the pads together with its
enable and has lemmas of its own.

The data of a write comes behind the command in the same shift register. `Bursting` follows the
halfwords of `MEM_WR1` : those still to go out, the one on the way and those that the device has.
The last one is never clocked out, the burst ends before it (`writeBurst`).

`Transfers` is the invariant of the device in a run, with the command of the transaction under way
and the memory that the writes so far make. There is one step lemma for each kind of state, and a
request that leaves `HR_IDLE` opens the next transaction (`Transfers.step`). A run has to start from
a `ColdStart`, since a reset lowers `csn` and would go on with a transaction that it cut off.

Along such a run the device has the command that the probe showed three cycles before the request
left `HR_IDLE` (`device_command`), and its memory is what the writes make of it in order, each with
fifteen of sixteen halfwords and none if its command is that of a read (`device_mem_eq_writes`).
-/

namespace HyperRam

open Clocked

/-! ## Data at the device -/

namespace Device

variable {d : Device} {w : ℕ} {p : Pads w}

/-- Outside a transaction. -/
def AtRest (d : Device) : Prop :=
  d.got = 0 ∧ d.data = []

theorem step_atRest (h : p.csn = true ∨ d.AtRest ∧ p.oeData = false ∧ p.rwdsOe = false) :
    (d.step p).AtRest ∧ (d.step p).mem = d.mem := by
  unfold AtRest step
  rcases h with hc | ⟨⟨hg, hd⟩, ho, hrw⟩
  · simp [hc]
  · cases hc : p.csn <;> simp [ho, hrw, hg, hd]

/-- Without `rwds_oe` no data is taken in. -/
theorem step_noData (hc : p.csn = false) (ho : p.rwdsOe = false) :
    (d.step p).data = d.data ∧ (d.step p).mem = d.mem := by
  unfold step
  rw [if_neg (by simp [hc])]
  split_ifs with hw hr
  · exact ⟨rfl, rfl⟩
  · simp [ho] at hr
  · simp [ho] at hr
  · exact ⟨rfl, rfl⟩

/-- A memory with the halfwords `ws` stored from the start of a line on. -/
def storeLine (mem : BitVec 32 → Fin 16 → BitVec 16) (line : BitVec 32) (ws : List (BitVec 16)) :
    BitVec 32 → Fin 16 → BitVec 16 :=
  fun l k => if l = line then ws.getD k (mem l k) else mem l k

theorem storeLine_nil (mem : BitVec 32 → Fin 16 → BitVec 16) (line : BitVec 32) :
    storeLine mem line [] = mem := by
  ext l k : 2
  simp [storeLine]

/-- The next halfword of a line. -/
theorem store_storeLine {mem : BitVec 32 → Fin 16 → BitVec 16} {line : BitVec 32}
    {ws : List (BitVec 16)} (h : d.mem = storeLine mem line ws) (x : BitVec 16) :
    d.store line ws.length x = storeLine mem line (ws ++ [x]) := by
  ext l k : 2
  unfold store
  rw [h]
  unfold storeLine
  by_cases hl : l = line
  · rcases Nat.lt_trichotomy k.val ws.length with hlt | heq | hgt
    · simp [hl, hlt.ne, List.getElem?_append_left hlt]
    · simp [hl, heq]
    · have hout : (ws ++ [x])[k.val]? = none := List.getElem?_eq_none (by simpa using hgt)
      simp [hl, hgt.ne', hgt.le, hout]
  · simp [hl]

/-- What a command makes of the halfwords that come with it. -/
def stored (mem : BitVec 32 → Fin 16 → BitVec 16) (ca : BitVec 48) (ws : List (BitVec 16)) :
    BitVec 32 → Fin 16 → BitVec 16 :=
  if ca.msb then mem else storeLine mem (lineOf ca) ws

theorem stored_nil (mem : BitVec 32 → Fin 16 → BitVec 16) (ca : BitVec 48) :
    stored mem ca [] = mem := by
  unfold stored
  split_ifs
  · rfl
  · exact storeLine_nil mem _

/-- Under `rwds_oe` a halfword is taken in. -/
theorem step_stored {mem : BitVec 32 → Fin 16 → BitVec 16} (hc : p.csn = false) (hg : d.got = 3)
    (ho : p.rwdsOe = true) (h : d.mem = stored mem d.ca d.data) :
    (d.step p).data = d.data ++ [d.last] ∧
      (d.step p).mem = stored mem d.ca (d.data ++ [d.last]) := by
  have hstep : d.step p = { d with
      last := p.datain, data := d.data ++ [d.last]
      mem := if d.ca.msb then d.mem else d.store (lineOf d.ca) d.data.length d.last } := by
    unfold step
    rw [if_neg (by simp [hc]), if_neg (by simp [hg]), if_pos (by simp [ho, hg])]
  rw [hstep]
  refine ⟨rfl, ?_⟩
  unfold stored at h ⊢
  simp only
  split_ifs at h ⊢ with hm
  · exact h
  · exact store_storeLine h d.last

end Device

/-! ## The command -/

namespace Hr

/-- The pads of `topv2`. There are no captured addresses. -/
def pads (m : Hr) : Pads 0 where
  rwdsOut := m.rwdsOut
  rwdsOe := m.rwdsOe
  datain := m.bufferOut wordOut
  oeData := m.oe
  oeClk := m.clken
  csn := m.csn
  capturedS0Address := 0
  capturedCsrAddress := 0

/-- The stage of the state machine in sending its command. -/
def stage (m : Hr) : Stage :=
  if m.state.IsCommand then
    match m.counter.toNat with
    | 0 => .wait
    | 1 => .word1
    | 2 => .word2
    | 3 => .tail
    | _ => .turn
  else if m.state.IsRun then .sent
  else .rest

/-- A command fits in the shift register. -/
theorem command_fits : 3 ≤ 19 := by decide

/-- The words still to go out, once the first one is on the pads without it. -/
def words (m : Hr) : Fin 3 → BitVec 16 :=
  fun k => (if m.counter = 0 then m.bufferOut else shiftIn m.bufferOut 0) (k.castLE command_fits)

variable {m : Hr} {i : TopIn} {d : Device} {D : BitVec 48} {shifted : Fin 19 → BitVec 16}
  {next : HrState}

theorem words_first (hc : m.counter = 0) : m.words slot0 = m.bufferOut wordOut ∧
    m.words slot1 = m.bufferOut 1 ∧ m.words slot2 = m.bufferOut 2 := by
  unfold words
  rw [if_pos hc]
  exact ⟨rfl, rfl, rfl⟩

theorem words_rest (hc : m.counter ≠ 0) :
    m.words slot0 = m.bufferOut 1 ∧ m.words slot1 = m.bufferOut 2 := by
  unfold words
  rw [if_neg hc]
  exact ⟨shiftIn_of_lt (by decide), shiftIn_of_lt (by decide)⟩

section command

variable (hm : m.PadsSafe) (hs : m.state.IsCommand)
include hm hs

/-- The first word goes to the pads as it is. -/
theorem PadsSafe.command_first (hc : m.counter = 0)
    (h : Command m.stage D m.words m.pads d) :
    Command (m.command shifted next i).stage D (m.command shifted next i).words
      (m.command shifted next i).pads (d.step m.pads) := by
  have hcsn : m.csn = false := hm.csn (by rintro he; simp [he, HrState.IsCommand] at hs)
  have hstage : m.stage = .wait := by simp [stage, hs, hc]
  rw [hstage] at h
  cases hw : i.rwdsIn
  case false =>
    have hoff : m.oe = false := h.2.2
    have hstay : m.command shifted next i = m := by simp [command, hc, hw]
    rw [hstay, hstage]
    exact h.step ⟨.inl rfl, rfl⟩ ⟨hcsn, hoff⟩ (by simp)
  case true =>
    have hgo : m.command shifted next i = { m with counter := 1, oe := true, clken := false } := by
      simp [command, hc, hw]
    have hnext : (m.command shifted next i).stage = .word1 := by simp [hgo, stage, hs]
    have hfirst : Command .word0 D m.words m.pads d := h
    obtain ⟨hw0, hw1, hw2⟩ := words_first hc
    obtain ⟨hw0', hw1'⟩ := words_rest (m := m.command shifted next i) (by simp [hgo])
    rw [hgo] at hw0' hw1' hnext ⊢
    rw [hnext]
    exact hfirst.step ⟨rfl, hw0'.trans hw1.symm, hw1'.trans hw2.symm⟩ ⟨hcsn, rfl, rfl, hw0.symm⟩
      (by simp)

/-- The words that follow move to the pads one by one. -/
theorem PadsSafe.command_word
    (hshift : ∀ k : Fin 19, k.val < 2 → shifted k = shiftIn m.bufferOut 0 k)
    (hc : m.counter = 1 ∨ m.counter = 2 ∨ m.counter = 3)
    (h : Command m.stage D m.words m.pads d) :
    Command (m.command shifted next i).stage D (m.command shifted next i).words
      (m.command shifted next i).pads (d.step m.pads) := by
  have hcsn : m.csn = false := hm.csn (by rintro he; simp [he, HrState.IsCommand] at hs)
  have hgo : m.command shifted next i =
      { m with bufferOut := shifted, oe := true, clken := true, counter := m.counter + 1 } := by
    rcases hc with hc | hc | hc <;> simp [command, hc]
  have hs0 : shifted wordOut = m.bufferOut 1 :=
    (hshift wordOut (by decide)).trans (shiftIn_of_lt (by decide))
  have hs1 : shifted 1 = m.bufferOut 2 := (hshift 1 (by decide)).trans (shiftIn_of_lt (by decide))
  obtain ⟨hw0, hw1⟩ := words_rest (m := m) (by rcases hc with hc | hc | hc <;> simp [hc])
  have hdrives : (m.command shifted next i).pads.csn = false ∧
      (m.command shifted next i).pads.oeData = true ∧
      (m.command shifted next i).pads.oeClk = true ∧
      (m.command shifted next i).pads.datain = m.words slot0 := by
    rw [hgo]
    exact ⟨hcsn, rfl, rfl, hs0.trans hw0.symm⟩
  rcases hc with hc | hc | hc
  · have hstage : m.stage = .word1 := by simp [stage, hs, hc]
    have hnext : (m.command shifted next i).stage = .word2 := by simp [hgo, stage, hs, hc]
    obtain ⟨hw0', -⟩ := words_rest (m := m.command shifted next i) (by simp [hgo, hc])
    rw [hstage] at h
    refine h.step ⟨hnext, ?_⟩ hdrives (by simp)
    rw [hw0', hw1, hgo]
    exact hs1
  · have hstage : m.stage = .word2 := by simp [stage, hs, hc]
    have hnext : (m.command shifted next i).stage = .tail := by simp [hgo, stage, hs, hc]
    rw [hstage] at h
    exact h.step hnext hdrives (by simp)
  · have hstage : m.stage = .tail := by simp [stage, hs, hc]
    have hnext : (m.command shifted next i).stage = .turn := by simp [hgo, stage, hs, hc]
    rw [hstage] at h
    exact h.step hnext hdrives (by simp)

/-- A clock of `RD_REG0`, `MEM_WR0` or `MEM_RD0`. -/
theorem PadsSafe.command_step (hn : next.IsRun)
    (hshift : ∀ k : Fin 19, k.val < 2 → shifted k = shiftIn m.bufferOut 0 k)
    (h : Command m.stage D m.words m.pads d) :
    Command (m.command shifted next i).stage D (m.command shifted next i).words
      (m.command shifted next i).pads (d.step m.pads) := by
  have hle := hm.command_le hs
  obtain hc | hc | hc : m.counter = 0 ∨ (m.counter = 1 ∨ m.counter = 2 ∨ m.counter = 3) ∨
    m.counter = 4 := by bv_omega
  · exact hm.command_first hs hc h
  · exact hm.command_word hs hshift hc h
  · have hcsn : m.csn = false := hm.csn (by rintro he; simp [he, HrState.IsCommand] at hs)
    have hnc : ¬next.IsCommand := by
      rcases hn with hn | hn | hn <;> simp [hn, HrState.IsCommand]
    have hgo : m.command shifted next i = { m with state := next, counter := 0, oe := false } := by
      simp [command, hc]
    have hstage : m.stage = .turn := by simp [stage, hs, hc]
    have hnext : (m.command shifted next i).stage = .sent := by simp [hgo, stage, hn, hnc]
    rw [hstage] at h
    rw [hnext, hgo]
    exact h.step rfl hcsn (by simp)

end command

end Hr

/-! ## The data of a write -/

/-- The halfwords of `MEM_WR0` behind the command, after `n` shifts. -/
def Loaded (b : Fin 19 → BitVec 16) (n : ℕ) : Prop :=
  ∀ k : Fin 19, 3 ≤ k.val + n → k.val + n < 19 → b k = burstData.getD (k.val + n - 3) 0

theorem loaded_loadBurst (b : Fin 19 → BitVec 16) : Loaded (loadBurst b) 0 := by
  intro k hk _
  unfold loadBurst
  rw [if_neg (by omega)]
  rfl

theorem Loaded.shiftIn {b : Fin 19 → BitVec 16} {n : ℕ} (h : Loaded b n) :
    Loaded (shiftIn b 0) (n + 1) := by
  intro k hk hlt
  have hk1 : k.val + 1 < 19 := by omega
  rw [shiftIn_of_lt hk1, h ⟨k.val + 1, hk1⟩ (by simp only; omega) (by simp only; omega)]
  congr 1
  simp only
  omega

namespace Hr

variable {m : Hr} {i : TopIn} {d : Device} {D : BitVec 48}
  {mem : BitVec 32 → Fin 16 → BitVec 16}

/-- Shifts of a write so far. -/
def shifts (m : Hr) : ℕ :=
  if m.state = .memWr0 then m.counter.toNat - 1
  else if m.counter.toNat ≤ 13 then 3
  else m.counter.toNat - 10

/-- A write burst in `MEM_WR1`, `mem` the memory before it : the halfwords still to go out, the
one on the way, and those that the device has. -/
structure Bursting (m : Hr) (d : Device) (mem : BitVec 32 → Fin 16 → BitVec 16) : Prop where
  loaded : Loaded m.bufferOut m.shifts
  last : 14 ≤ m.counter.toNat → d.last = burstData.getD (m.counter.toNat - 14) 0
  data : d.data = burstData.take (m.counter.toNat - 14)
  mem : d.mem = Device.stored mem d.ca d.data

theorem take_burstData {n : ℕ} (h : n < 16) :
    burstData.take n ++ [burstData.getD n 0] = burstData.take (n + 1) := by
  have hlen : n < burstData.length := h
  rw [List.getD_eq_getElem?_getD, List.getElem?_eq_getElem hlen, Option.getD_some,
    List.take_append_getElem]

/-- What the device has after one more clock. -/
theorem Bursting.device_step (h : m.Bursting d mem) (hm : m.PadsSafe) (hs : m.state = .memWr1)
    (hg : d.got = 3) : (d.step m.pads).data = burstData.take (m.counter.toNat + 1 - 14) ∧
      (d.step m.pads).mem = Device.stored mem d.ca (burstData.take (m.counter.toNat + 1 - 14)) := by
  have hcsn : m.csn = false := hm.csn (by simp [hs])
  have hle := hm.run_le hs
  by_cases h14 : 14 ≤ m.counter.toNat
  · have ho : m.rwdsOe = true := hm.rwdsOe.2 ⟨hs, by bv_omega⟩
    obtain ⟨hdata, hmem⟩ := Device.step_stored (p := m.pads) hcsn hg ho h.mem
    have htake : d.data ++ [d.last] = burstData.take (m.counter.toNat + 1 - 14) := by
      rw [h.data, h.last h14, take_burstData (by bv_omega)]
      congr 1
      omega
    rw [hdata, hmem, htake]
    exact ⟨rfl, rfl⟩
  · have ho : m.rwdsOe = false := Bool.eq_false_iff.2 fun ho => by
      have := (hm.rwdsOe.1 ho).2
      bv_omega
    obtain ⟨hdata, hmem⟩ := Device.step_noData (d := d) (p := m.pads) hcsn ho
    have hz : m.counter.toNat + 1 - 14 = m.counter.toNat - 14 := by omega
    rw [hdata, hmem, hz, ← h.data]
    exact ⟨rfl, h.mem⟩

theorem shifts_memWr1 (hs : m.state = .memWr1) :
    m.shifts = if m.counter.toNat ≤ 13 then 3 else m.counter.toNat - 10 := by
  simp [shifts, hs]

/-- `MEM_WR1` counts until its last clock. -/
theorem PadsSafe.memWr1_count (hm : m.PadsSafe) (hs : m.state = .memWr1) (hc : m.counter ≠ 28) :
    m.memWr1.state = .memWr1 ∧ m.memWr1.counter.toNat = m.counter.toNat + 1 := by
  have hle := hm.run_le hs
  have hnext : (m.counter + 1).toNat = m.counter.toNat + 1 := by bv_omega
  unfold memWr1
  rw [if_neg hc]
  split_ifs <;> exact ⟨hs, hnext⟩

/-- A clock of `MEM_WR1` before the last keeps the halfwords still to go out. -/
theorem PadsSafe.loaded_memWr1 (hm : m.PadsSafe) (hs : m.state = .memWr1) (hc : m.counter ≠ 28)
    (h : Loaded m.bufferOut m.shifts) : Loaded m.memWr1.bufferOut m.memWr1.shifts := by
  have hle := hm.run_le hs
  obtain ⟨hstate, hcount⟩ := hm.memWr1_count hs hc
  rw [shifts_memWr1 hs] at h
  rw [shifts_memWr1 hstate, hcount]
  by_cases h12 : 12 < m.counter.toNat
  · have hb : m.memWr1.bufferOut = shiftIn m.bufferOut 0 := by
      unfold memWr1
      rw [if_neg hc, if_pos ⟨by bv_omega, by bv_omega⟩]
    have hn : (if m.counter.toNat + 1 ≤ 13 then 3 else m.counter.toNat + 1 - 10) =
        (if m.counter.toNat ≤ 13 then 3 else m.counter.toNat - 10) + 1 := by
      split_ifs <;> omega
    rw [hb, hn]
    exact h.shiftIn
  · have hb : m.memWr1.bufferOut = m.bufferOut := by
      unfold memWr1
      rw [if_neg hc, if_neg fun hw => h12 (by bv_omega)]
    rw [if_pos (by omega)] at h
    rw [hb, if_pos (by omega)]
    exact h

/-- A clock of `MEM_WR1` before the last. -/
theorem Bursting.step (h : m.Bursting d mem) (hm : m.PadsSafe) (hs : m.state = .memWr1)
    (hg : d.got = 3) (hc : m.counter ≠ 28) : m.memWr1.Bursting (d.step m.pads) mem := by
  have hle := hm.run_le hs
  have hcsn : m.csn = false := hm.csn (by simp [hs])
  obtain ⟨hdata, hmem⟩ := h.device_step hm hs hg
  have hca : (d.step m.pads).ca = d.ca := by
    have hwords := (Device.step_noWord (d := d) (p := m.pads) hcsn (.inr (.inr hg.ge))).2
    simp only [Device.ca, hwords]
  have hcount := (hm.memWr1_count hs hc).2
  have hnow := shifts_memWr1 hs
  refine ⟨hm.loaded_memWr1 hs hc h.loaded, fun h14 => ?_, by rw [hdata, hcount],
    by rw [hmem, hca, hdata]⟩
  rw [hcount] at h14 ⊢
  rw [Device.step_last]
  show m.bufferOut wordOut = _
  rw [h.loaded wordOut (by simp only [hnow, Fin.val_zero]; split_ifs <;> omega)
    (by simp only [hnow, Fin.val_zero]; split_ifs <;> bv_omega), hnow, Fin.val_zero]
  congr 1
  split_ifs <;> omega

/-- A clock of `MEM_WR0` keeps the halfwords behind the command. -/
theorem PadsSafe.loaded_step (hm : m.PadsSafe) (hs : m.state = .memWr0)
    (h : Loaded m.bufferOut m.shifts) :
    Loaded (m.memWr0 i).bufferOut (m.memWr0 i).shifts := by
  have hle := hm.command_le (.inr (.inl hs))
  have hnow : m.shifts = m.counter.toNat - 1 := if_pos hs
  rw [hnow] at h
  obtain hc | hc | hc : m.counter = 0 ∨ (m.counter = 1 ∨ m.counter = 2 ∨ m.counter = 3) ∨
    m.counter = 4 := by bv_omega
  · cases hw : i.rwdsIn <;> simpa [memWr0, command, shifts, hs, hc, hw] using h
  · have hshift := h.shiftIn
    rcases hc with hc | hc | hc <;> simpa [memWr0, command, shifts, hs, hc] using hshift
  · simpa [memWr0, command, shifts, hs, hc] using h

theorem command_state (shifted : Fin 19 → BitVec 16) (next : HrState) :
    (m.command shifted next i).state = m.state ∨
      (m.command shifted next i).state = next ∧ (m.command shifted next i).counter = 0 := by
  unfold command
  split_ifs
  · exact .inr ⟨rfl, rfl⟩
  all_goals exact .inl rfl

/-- `HR_IDLE` leaves with the command in the shift register. -/
theorem idle_leaves {stall : Bool} {ca : BitVec 48} (hs : m.state = .idle)
    (h : (m.idle stall ca i).state.IsCommand) :
    (m.idle stall ca i).counter = 0 ∧ (m.idle stall ca i).oe = false ∧
      (m.idle stall ca i).words = caWords ca := by
  have hload (b : Fin 19 → BitVec 16) (k : Fin 3) :
      loadCommand b ca (k.castLE command_fits) = caWords ca k := dif_pos k.isLt
  have hburst (b : Fin 19 → BitVec 16) (k : Fin 3) :
      loadBurst b (k.castLE command_fits) = b (k.castLE command_fits) := if_pos k.isLt
  have hne : ¬m.state.IsCommand := by simp [hs, HrState.IsCommand]
  have hwords {m' : Hr} (hc : m'.counter = 0) (hb : m'.bufferOut = loadCommand m.bufferOut ca ∨
      m'.bufferOut = loadBurst (loadCommand m.bufferOut ca)) : m'.words = caWords ca := by
    unfold words
    rw [if_pos hc]
    ext k : 1
    rcases hb with hb | hb
    · rw [hb, hload]
    · rw [hb, hburst, hload]
  revert h
  unfold idle
  cases (i.memr && !m.prevMemr) && !stall <;> cases (i.memw && !m.prevMemw) && !stall <;>
    cases (i.regr && !m.prevRegr) && !stall <;> intro h
  case false.false.false => exact absurd h hne
  case false.false.true => exact ⟨rfl, rfl, hwords rfl (.inl rfl)⟩
  case true.false.false => exact ⟨rfl, rfl, hwords rfl (.inl rfl)⟩
  case true.false.true => exact ⟨rfl, rfl, hwords rfl (.inl rfl)⟩
  all_goals exact ⟨rfl, rfl, hwords rfl (.inr rfl)⟩

end Hr

/-! ## Whole transactions -/

/-- The states of a register or memory read. -/
def HrState.IsRead (s : HrState) : Prop :=
  s = .rdReg0 ∨ s = .memRd0 ∨ s = .rdReg1 ∨ s = .memRd1

namespace TopV2

/-- What a write makes of the memory. The sixteenth halfword of `MEM_WR0` is never clocked out. -/
def writeBurst (mem : BitVec 32 → Fin 16 → BitVec 16) (ca : BitVec 48) :
    BitVec 32 → Fin 16 → BitVec 16 :=
  Device.stored mem ca (burstData.take 15)

variable {s : TopV2} {i : TopIn} {d : Device} {D : BitVec 48}
  {mem : BitVec 32 → Fin 16 → BitVec 16}

/-- The device in a transaction with the command `D`, where `mem` is what the writes so far make
of the memory, the one under way included. -/
structure Transfers (s : TopV2) (d : Device) (D : BitVec 48)
    (mem : BitVec 32 → Fin 16 → BitVec 16) : Prop where
  safe : s.hr.PadsSafe
  command : Command s.hr.stage D s.hr.words s.hr.pads d
  rest : s.hr.state = .idle → s.hr.csn = true ∨ d.AtRest
  data : s.hr.state ≠ .idle → s.hr.state ≠ .memWr1 → d.data = []
  kept : s.hr.state ≠ .memWr0 → s.hr.state ≠ .memWr1 → d.mem = mem
  memWr0 : s.hr.state = .memWr0 → Loaded s.hr.bufferOut s.hr.shifts ∧ mem = writeBurst d.mem D
  memWr1 : s.hr.state = .memWr1 → ∃ before, s.hr.Bursting d before ∧ mem = writeBurst before D

/-- `HR_IDLE` selects the device for a request only. -/
theorem step_idle_cases (hs : s.hr.state = .idle) (hr : i.rst = false) :
    (s.step i).hr.state = .idle ∧ (s.step i).hr.csn = true ∨ (s.step i).hr.state.IsCommand :=
  (Hr.step_idle hs hr).imp_right And.left

section step

variable (h : Transfers s d D mem) (hr : i.rst = false)
include h hr

/-- A clock of `HR_IDLE` without a request. -/
theorem Transfers.step_rest (hs : s.hr.state = .idle) (hs' : (s.step i).hr.state = .idle) :
    Transfers (s.step i) (d.step s.hr.pads) D mem := by
  have hoe : s.hr.oe = false := by simpa [hs, HrState.IsCommand] using h.safe.oe
  have ho : s.hr.rwdsOe = false := by simpa [hs] using h.safe.rwdsOe
  have hcsn : (s.step i).hr.csn = true := by
    rcases step_idle_cases hs hr with ⟨-, hc⟩ | hcmd
    · exact hc
    · rw [hs'] at hcmd
      exact absurd hcmd (by decide)
  obtain ⟨-, hmem⟩ := Device.step_atRest (d := d) (p := s.hr.pads)
    ((h.rest hs).imp_right fun hd => ⟨hd, hoe, ho⟩)
  have hstage : (s.step i).hr.stage = .rest := by
    simp [Hr.stage, hs', HrState.IsCommand, HrState.IsRun]
  refine ⟨h.safe.step (by simp [hr]), ?_, fun _ => .inl hcsn, by simp [hs'], fun _ _ => ?_,
    by simp [hs'], by simp [hs']⟩
  · rw [hstage]
    trivial
  · rw [hmem]
    exact h.kept (by simp [hs]) (by simp [hs])

/-- A request leaves `HR_IDLE`. -/
theorem Transfers.step_leave (hs : s.hr.state = .idle) (hs' : (s.step i).hr.state.IsCommand) :
    Transfers (s.step i) (d.step s.hr.pads) (s.rwr.caSigr slot0)
      (if (s.step i).hr.state = .memWr0 then writeBurst mem (s.rwr.caSigr slot0) else mem) := by
  have hoe : s.hr.oe = false := by simpa [hs, HrState.IsCommand] using h.safe.oe
  have ho : s.hr.rwdsOe = false := by simpa [hs] using h.safe.rwdsOe
  obtain ⟨hrest, hmem⟩ := Device.step_atRest (d := d) (p := s.hr.pads)
    ((h.rest hs).imp_right fun hd => ⟨hd, hoe, ho⟩)
  have hbefore : d.mem = mem := h.kept (by simp [hs]) (by simp [hs])
  have hstep : (s.step i).hr = { s.hr.idle s.rwr.rwrStall (s.rwr.caSigr slot0) i with
      prevRegw := i.regw, prevRegr := i.regr, prevMemw := i.memw, prevMemr := i.memr } := by
    simp [step_hr, Hr.step, hr, hs]
  have hidle : (s.hr.idle s.rwr.rwrStall (s.rwr.caSigr slot0) i).state.IsCommand := by
    rwa [hstep] at hs'
  obtain ⟨hc, hoe', hwords⟩ := Hr.idle_leaves hs hidle
  have hne : (s.step i).hr.state ≠ .idle ∧ (s.step i).hr.state ≠ .memWr1 := by
    constructor <;> intro he <;> rw [he] at hs' <;> exact absurd hs' (by decide)
  have hc' : (s.step i).hr.counter = 0 := by rw [hstep]; exact hc
  have hstage : (s.step i).hr.stage = .wait := by simp [Hr.stage, hs', hc']
  refine ⟨h.safe.step (by simp [hr]), ?_, fun he => absurd he hne.1, fun _ _ => hrest.2,
    fun h0 _ => ?_, fun h0 => ⟨?_, ?_⟩, fun he => absurd he hne.2⟩
  · rw [hstage]
    exact ⟨by rw [hstep]; exact hwords, .inr hrest.1, by rw [hstep]; exact hoe'⟩
  · rw [if_neg h0, hmem, hbefore]
  · obtain ⟨-, hb⟩ := entered (s := s) (i := i) (by simp [hs]) h0
    have hshifts : (s.step i).hr.shifts = 0 := by simp [Hr.shifts, h0, hc']
    rw [hb, hshifts]
    exact loaded_loadBurst _
  · rw [if_pos h0, hmem, hbefore]

/-- A clock of `MEM_WR0`. -/
theorem Transfers.step_memWr0 (hs : s.hr.state = .memWr0) :
    Transfers (s.step i) (d.step s.hr.pads) D mem := by
  have hcmd : s.hr.state.IsCommand := .inr (.inl hs)
  have hcsn : s.hr.csn = false := h.safe.csn (by simp [hs])
  have ho : s.hr.rwdsOe = false := by simpa [hs] using h.safe.rwdsOe
  obtain ⟨hdata, hmem⟩ := Device.step_noData (d := d) (p := s.hr.pads) hcsn ho
  have hnil : d.data = [] := h.data (by simp [hs]) (by simp [hs])
  obtain ⟨hloaded, hwrite⟩ := h.memWr0 hs
  have hload := h.safe.loaded_step (i := i) hs hloaded
  have hcommand : Command (s.hr.memWr0 i).stage D (s.hr.memWr0 i).words (s.hr.memWr0 i).pads
      (d.step s.hr.pads) :=
    h.safe.command_step hcmd (.inr (.inl rfl)) (fun _ _ => rfl) h.command
  have hstate : (s.hr.memWr0 i).state = .memWr0 ∨
      (s.hr.memWr0 i).state = .memWr1 ∧ (s.hr.memWr0 i).counter = 0 :=
    (Hr.command_state (m := s.hr) (i := i) _ _).imp_left fun he => he.trans hs
  have hstep : (s.step i).hr = { s.hr.memWr0 i with
      prevRegw := i.regw, prevRegr := i.regr, prevMemw := i.memw, prevMemr := i.memr } := by
    simp [step_hr, Hr.step, hr, hs]
  refine ⟨h.safe.step (by simp [hr]), by rw [hstep]; exact hcommand, fun he => ?_,
    fun _ _ => hdata.trans hnil, fun h0 h1 => ?_, fun _ => ⟨by rw [hstep]; exact hload, ?_⟩,
    fun h1 => ⟨d.mem, ⟨by rw [hstep]; exact hload, ?_, ?_, ?_⟩, hwrite⟩⟩
  · rw [hstep] at he
    rcases hstate with hst | ⟨hst, -⟩ <;> exact absurd (hst.symm.trans he) (by simp)
  · rw [hstep] at h0 h1
    exact absurd hstate (by simp [h0, h1])
  · rw [hmem]
    exact hwrite
  all_goals
    have hc : (s.step i).hr.counter = 0 := by
      rw [hstep] at h1 ⊢
      rcases hstate with hst | ⟨-, hc⟩
      · exact absurd (hst.symm.trans h1) (by simp)
      · exact hc
  · simp [hc]
  · rw [hdata, hnil, hc]
    rfl
  · rw [hdata, hnil, hmem, Device.stored_nil]

/-- A clock of a read, from what it makes of the command. -/
theorem Transfers.of_read (hs : s.hr.state.IsRead) (hs' : (s.step i).hr.state.IsRead ∨
      (s.step i).hr.state = .idle ∧ (s.step i).hr.csn = true)
    (hcommand : Command (s.step i).hr.stage D (s.step i).hr.words (s.step i).hr.pads
      (d.step s.hr.pads)) : Transfers (s.step i) (d.step s.hr.pads) D mem := by
  have hne : s.hr.state ≠ .idle ∧ s.hr.state ≠ .memWr0 ∧ s.hr.state ≠ .memWr1 := by
    rcases hs with hs | hs | hs | hs <;> simp [hs]
  have hne' : (s.step i).hr.state ≠ .memWr0 ∧ (s.step i).hr.state ≠ .memWr1 := by
    rcases hs' with (hs' | hs' | hs' | hs') | ⟨hs', -⟩ <;> simp [hs']
  have hcsn : s.hr.csn = false := h.safe.csn hne.1
  have ho : s.hr.rwdsOe = false := by simpa [hne.2.2] using h.safe.rwdsOe
  obtain ⟨hdata, hmem⟩ := Device.step_noData (d := d) (p := s.hr.pads) hcsn ho
  refine ⟨h.safe.step (by simp [hr]), hcommand, fun he => ?_,
    fun _ _ => hdata.trans (h.data hne.1 hne.2.2),
    fun _ _ => hmem.trans (h.kept hne.2.1 hne.2.2), fun h0 => absurd h0 hne'.1,
    fun h1 => absurd h1 hne'.2⟩
  rcases hs' with hs' | ⟨-, hc⟩
  · rcases hs' with hs' | hs' | hs' | hs' <;> exact absurd (hs'.symm.trans he) (by simp)
  · exact .inl hc

/-- A clock of `RD_REG0` or `MEM_RD0`. -/
theorem Transfers.step_readCommand (hs : s.hr.state = .rdReg0 ∨ s.hr.state = .memRd0) :
    Transfers (s.step i) (d.step s.hr.pads) D mem := by
  have hshift (k : Fin 19) (hk : k.val < 2) :
      shiftCommand s.hr.bufferOut k = shiftIn s.hr.bufferOut 0 k := if_pos hk
  rcases hs with hs | hs
  · have hstep : (s.step i).hr = { s.hr.rdReg0 i with
        prevRegw := i.regw, prevRegr := i.regr, prevMemw := i.memw, prevMemr := i.memr } := by
      simp [step_hr, Hr.step, hr, hs]
    refine h.of_read hr (.inl hs) (.inl ?_) ?_
    · rw [hstep]
      rcases Hr.command_state (m := s.hr) (i := i) (shiftCommand s.hr.bufferOut) .rdReg1 with
        hst | ⟨hst, -⟩
      · exact .inl (hst.trans hs)
      · exact .inr (.inr (.inl hst))
    · rw [hstep]
      exact h.safe.command_step (.inl hs) (.inl rfl) hshift h.command
  · have hstep : (s.step i).hr = { s.hr.memRd0 i with
        prevRegw := i.regw, prevRegr := i.regr, prevMemw := i.memw, prevMemr := i.memr } := by
      simp [step_hr, Hr.step, hr, hs]
    refine h.of_read hr (.inr (.inl hs)) (.inl ?_) ?_
    · rw [hstep]
      rcases Hr.command_state (m := s.hr) (i := i) (shiftCommand s.hr.bufferOut) .memRd1 with
        hst | ⟨hst, -⟩
      · exact .inr (.inl (hst.trans hs))
      · exact .inr (.inr (.inr hst))
    · rw [hstep]
      exact h.safe.command_step (.inr (.inr hs)) (.inr (.inr rfl)) hshift h.command

/-- A clock of `RD_REG1` or `MEM_RD1`. -/
theorem Transfers.step_readRun (hs : s.hr.state = .rdReg1 ∨ s.hr.state = .memRd1) :
    Transfers (s.step i) (d.step s.hr.pads) D mem := by
  have hcsn : s.hr.csn = false := h.safe.csn (by rcases hs with hs | hs <;> simp [hs])
  have hstage : s.hr.stage = .sent := by
    rcases hs with hs | hs <;> simp [Hr.stage, hs, HrState.IsCommand, HrState.IsRun]
  have hcommand := h.command
  rw [hstage] at hcommand
  have hnext : (s.step i).hr.state = s.hr.state ∧ (s.step i).hr.csn = s.hr.csn ∨
      (s.step i).hr.state = .idle ∧ (s.step i).hr.csn = true := by
    rcases hs with hs | hs
    · simp only [step_hr, Hr.step, hr, hs, Bool.false_eq_true, if_false]
      exact (s.hr.rdReg1_cases i).imp (fun hk => ⟨hk.1.trans hs, hk.2.1⟩)
        fun hk => ⟨hk.1, hk.2.1⟩
    · simp only [step_hr, Hr.step, hr, hs, Bool.false_eq_true, if_false]
      exact (s.hr.memRd1_cases i).imp (fun hk => ⟨hk.1.trans hs, hk.2.1⟩)
        fun hk => ⟨hk.1, hk.2.1⟩
  rcases hnext with ⟨hst, hc⟩ | ⟨hst, hc⟩
  · have hs' : (s.step i).hr.state = .rdReg1 ∨ (s.step i).hr.state = .memRd1 :=
      hs.imp hst.trans hst.trans
    have hstage' : (s.step i).hr.stage = .sent := by
      rcases hs' with hs' | hs' <;> simp [Hr.stage, hs', HrState.IsCommand, HrState.IsRun]
    refine h.of_read hr (.inr (.inr hs)) (.inl (.inr (.inr hs'))) ?_
    rw [hstage']
    exact hcommand.step (.inl rfl) (hc.trans hcsn) (by simp)
  · refine h.of_read hr (.inr (.inr hs)) (.inr ⟨hst, hc⟩) ?_
    rw [show (s.step i).hr.stage = .rest by
      simp [Hr.stage, hst, HrState.IsCommand, HrState.IsRun]]
    trivial

/-- A clock of `MEM_WR1`. -/
theorem Transfers.step_memWr1 (hs : s.hr.state = .memWr1) :
    Transfers (s.step i) (d.step s.hr.pads) D mem := by
  have hcsn : s.hr.csn = false := h.safe.csn (by simp [hs])
  have hstage : s.hr.stage = .sent := by simp [Hr.stage, hs, HrState.IsCommand, HrState.IsRun]
  have hcommand := h.command
  rw [hstage] at hcommand
  obtain ⟨before, hburst, hwrite⟩ := h.memWr1 hs
  have hstep : (s.step i).hr = { s.hr.memWr1 with
      prevRegw := i.regw, prevRegr := i.regr, prevMemw := i.memw, prevMemr := i.memr } := by
    simp [step_hr, Hr.step, hr, hs]
  by_cases hc : s.hr.counter = 28
  · obtain ⟨-, hmem⟩ := hburst.device_step h.safe hs hcommand.1
    have hst : (s.step i).hr.state = .idle := by simp [hstep, Hr.memWr1, hc]
    have hcsn' : (s.step i).hr.csn = true := by simp [hstep, Hr.memWr1, hc]
    refine ⟨h.safe.step (by simp [hr]), ?_, fun _ => .inl hcsn', by simp [hst], fun _ _ => ?_,
      by simp [hst], by simp [hst]⟩
    · rw [show (s.step i).hr.stage = .rest by
        simp [Hr.stage, hst, HrState.IsCommand, HrState.IsRun]]
      trivial
    · rw [hmem, hwrite, hcommand.ca_eq (.inl rfl), hc]
      rfl
  · have hnext := hburst.step h.safe hs hcommand.1 hc
    have hst : (s.step i).hr.state = .memWr1 := by
      rw [hstep]
      rcases s.hr.memWr1_cases with ⟨hst, -⟩ | ⟨-, -, h28⟩
      · exact hst.trans hs
      · exact absurd (by bv_omega) hc
    have hsafe : (s.step i).hr.PadsSafe := h.safe.step (by simp [hr])
    have hcsn' : (s.step i).hr.csn = false := hsafe.csn (by simp [hst])
    refine ⟨hsafe, ?_, by simp [hst], by simp [hst], by simp [hst],
      by simp [hst], fun _ => ⟨before, ?_, hwrite⟩⟩
    · rw [show (s.step i).hr.stage = .sent by
        simp [Hr.stage, hst, HrState.IsCommand, HrState.IsRun]]
      exact hcommand.step (.inl rfl) hcsn' (by simp)
    · rw [hstep]
      exact ⟨hnext.loaded, hnext.last, hnext.data, hnext.mem⟩

/-- One clock. A request that leaves `HR_IDLE` opens the next transaction. -/
theorem Transfers.step : Transfers (s.step i) (d.step s.hr.pads)
    (if s.hr.state = .idle ∧ (s.step i).hr.state.IsCommand then s.rwr.caSigr slot0 else D)
    (if s.hr.state = .idle ∧ (s.step i).hr.state = .memWr0 then writeBurst mem (s.rwr.caSigr slot0)
      else mem) := by
  by_cases hs : s.hr.state = .idle
  · rcases step_idle_cases hs hr with ⟨hs', -⟩ | hs'
    · simp only [hs', HrState.IsCommand, reduceCtorEq, or_self, and_false, if_false]
      exact h.step_rest hr hs hs'
    · rw [if_pos ⟨hs, hs'⟩]
      simpa only [hs, true_and] using h.step_leave hr hs hs'
  · rw [if_neg (fun hgo => hs hgo.1), if_neg (fun hgo => hs hgo.1)]
    rcases h.safe.state with hs' | (hs' | hs' | hs') | hs' | hs' | hs'
    · exact absurd hs' hs
    · exact h.step_readCommand hr (.inl hs')
    · exact h.step_memWr0 hr hs'
    · exact h.step_readCommand hr (.inr hs')
    · exact h.step_readRun hr (.inl hs')
    · exact h.step_memWr1 hr hs'
    · exact h.step_readRun hr (.inr hs')

end step

/-! ## Along a run -/

section run

variable (r : Run Init TopV2.step)

/-- The command probe as the state machine sees it in cycle `t`, three clocks late. -/
def sampledCa (t : ℕ) : BitVec 48 :=
  if 3 ≤ t then (r.input (t - 3)).caSig else 0

/-- The device along a run of `topv2`, `d` at reset. -/
def device (d : Device) : ℕ → Device
  | 0 => d
  | t + 1 => (device d t).step (r.state t).hr.pads

/-- How a run starts : the first reset finds the `rwds` pad released and the device `d` outside a
transaction. A reset does neither itself. It leaves `rwds_oe` as it is, and lowers `csn`, so a
device that was cut off in a transaction would go on with it. -/
structure ColdStart (d : Device) : Prop where
  released : (r.state 0).hr.rwdsOe = false
  atRest : d.AtRest

/-- The command of the last request that left `HR_IDLE` before cycle `t`. -/
def lastCommand : ℕ → BitVec 48
  | 0 => 0
  | t + 1 =>
    if (r.state t).hr.state = .idle ∧ (r.state (t + 1)).hr.state.IsCommand then sampledCa r t
    else lastCommand t

/-- The write that leaves `HR_IDLE` on the clock after cycle `t`. -/
def writeTaken (t : ℕ) : List (BitVec 48) :=
  if (r.state t).hr.state = .idle ∧ (r.state (t + 1)).hr.state = .memWr0 then [sampledCa r t]
  else []

variable (hr : ∀ t, (r.input t).rst = false)
include hr

theorem caSigr_eq (t : ℕ) (k : Fin 3) : (r.state t).rwr.caSigr k =
    if 3 ≤ t + k.val then (r.input (t + k.val - 3)).caSig else 0 := by
  induction t generalizing k with
  | zero =>
    obtain ⟨s₀, i, hrst, hs⟩ := r.start
    have hk : ¬3 ≤ 0 + k.val := by omega
    rw [hs, if_neg hk]
    simp [step, Rwr.step, hrst]
  | succ t ih =>
    have hstep : (r.state (t + 1)).rwr.caSigr =
        shiftIn (r.state t).rwr.caSigr (r.input t).caSig := by
      rw [r.clock, step_rwr, Rwr.step, if_neg (by simp [hr])]
      split_ifs <;> rfl
    rw [hstep]
    by_cases hk : k.val + 1 < 3
    · rw [shiftIn_of_lt hk, ih ⟨k.val + 1, hk⟩]
      simp only [show t + (k.val + 1) = t + 1 + k.val by omega]
    · rw [shiftIn_last hk, if_pos (by omega), show t + 1 + k.val - 3 = t by omega]

theorem sampledCa_eq (t : ℕ) : (r.state t).rwr.caSigr slot0 = sampledCa r t :=
  caSigr_eq r hr t slot0

/-- Along a run without a further reset, from a cold start. -/
theorem transfers {d : Device} (h0 : ColdStart r d) :
    ∀ t, Transfers (r.state t) (device r d t) (lastCommand r t)
      ((log (writeTaken r) t).foldl writeBurst d.mem)
  | 0 => by
    obtain ⟨s₀, i, hrst, hs⟩ := r.start
    have hbefore : s₀.hr.rwdsOe = false := by
      have hreleased := h0.released
      rw [hs] at hreleased
      simpa [step, Hr.step, hrst] using hreleased
    have hidle : (r.state 0).hr.state = .idle := by simp [hs, step, Hr.step, hrst]
    have hsafe : (r.state 0).hr.PadsSafe := by
      rw [hs]
      exact Hr.padsSafe_reset hrst hbefore
    refine ⟨hsafe, ?_, fun _ => .inr h0.atRest, by simp [hidle], fun _ _ => rfl, by simp [hidle],
      by simp [hidle]⟩
    rw [show (r.state 0).hr.stage = .rest by
      simp [Hr.stage, hidle, HrState.IsCommand, HrState.IsRun]]
    trivial
  | t + 1 => by
    have hstep := (transfers h0 t).step (hr t)
    rw [← r.clock, sampledCa_eq r hr] at hstep
    have hlog : (log (writeTaken r) (t + 1)).foldl writeBurst d.mem =
        if (r.state t).hr.state = .idle ∧ (r.state (t + 1)).hr.state = .memWr0 then
          writeBurst ((log (writeTaken r) t).foldl writeBurst d.mem) (sampledCa r t)
        else (log (writeTaken r) t).foldl writeBurst d.mem := by
      rw [log_succ, List.foldl_append, writeTaken]
      split_ifs <;> rfl
    rw [hlog]
    exact hstep

end run

/-- In such a run the memory of the device is, outside a write, what the writes so far make of it,
in order. Each stores fifteen of its sixteen halfwords, unless its command is that of a read. -/
theorem device_mem_eq_writes (r : Run Init TopV2.step) (hr : ∀ t, (r.input t).rst = false)
    {d : Device} (h0 : ColdStart r d) {t : ℕ}
    (ht : (r.state t).hr.state ≠ .memWr0 ∧ (r.state t).hr.state ≠ .memWr1) :
    (device r d t).mem = (log (writeTaken r) t).foldl writeBurst d.mem :=
  (transfers r hr h0 t).kept ht.1 ht.2

/-- A write to line `8` in cycle `12`, its command from the probe in cycle `9`. -/
def writeLine (t : ℕ) : TopIn :=
  { rst := false, regr := false, regw := false, memr := false, memw := decide (t = 12),
    caSig := if t = 9 then 0x10000 else 0, regdata := 0, latency := 0, rwdsIn := true,
    dataout := 0 }

/-- The run of `writeLine` from a reset. -/
def writeLineRun : Run Init TopV2.step :=
  Run.ofInputs (s := TopV2.step rest { writeLine 0 with rst := true }) ⟨_, _, rfl, rfl⟩ writeLine

theorem coldStart_writeLine : ColdStart writeLineRun .zero :=
  ⟨rfl, rfl, rfl⟩

theorem device_mem_eq_writes_writeLine :
    (device writeLineRun .zero 50).mem 8 14 = 0xf3d1 ∧
      (device writeLineRun .zero 50).mem 8 15 = 0 := by
  have hlog : log (writeTaken writeLineRun) 50 = [0x10000] := by decide +kernel
  rw [device_mem_eq_writes writeLineRun (fun _ => rfl) coldStart_writeLine
    ⟨by decide +kernel, by decide +kernel⟩, hlog]
  decide

end TopV2

end HyperRam
