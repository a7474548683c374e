import HyperRam.Coupling

/-!
# The memory device

The HyperRAM chip as the pads show it. A transaction lasts while `csn` is low. Its first three
words are the command, after a write command the words under `rwds_oe` go into the selected
line. The pads take `datain` over one clock later than `oe_clk`, so the word a clock brings
is the `datain` of the cycle before. What the device puts on `dataout` is not part of it, that is
an input of the controller and comes in as an assumption on runs where a result needs it.

`Device.step` is one clock on the pads before it, and its lemmas say what each kind of clock does :
deselected, with a word of the command, without one, with data (`step_deselected`, `step_word`,
`step_noWord`, `step_data`). Only a write command stores (`step_mem`).

`Command` is the progress of a command through a bus machine, the output registers and the
device, by the `Stage` of the machine : the words that are still in the shift register, the one on
the pads and those in the device make up the command in each of them. `Stage.Next` is what a clock
of the machine does to the stage and `Stage.Drives` what the output registers take over from it, and
from these two `Command.step` follows without a look at the machine. So it serves the three machines
of the controller, and `topv2` as well. Once it is sent the device has the command
(`Command.ca_eq`).
-/

namespace HyperRam

open Clocked

/-- What the device remembers. -/
structure Device where
  /-- The lines of sixteen halfwords, by line address. -/
  mem : BitVec 32 → Fin 16 → BitVec 16
  /-- `datain` of the cycle before. -/
  last : BitVec 16
  /-- Command words received in this transaction. -/
  got : ℕ
  words : Fin 3 → BitVec 16
  /-- Data halfwords received in this transaction. -/
  data : List (BitVec 16)

namespace Device

/-- A device with every line zero, outside a transaction. -/
def zero : Device :=
  ⟨fun _ _ => 0, 0, 0, fun _ => 0, []⟩

variable (d : Device)

/-- The command of the transaction. -/
def ca : BitVec 48 :=
  d.words slot0 ++ d.words slot1 ++ d.words slot2

/-- The line a command selects : `CA[44:16]` and `CA[2:0]`. -/
def lineOf (ca : BitVec 48) : BitVec 32 :=
  ca.extractLsb' 16 29 ++ ca.extractLsb' 0 3

/-- Store halfword `j` of a line. -/
def store (line : BitVec 32) (j : ℕ) (x : BitVec 16) : BitVec 32 → Fin 16 → BitVec 16 :=
  fun l k => if l = line ∧ k.val = j then x else d.mem l k

/-- One clock of the device, on the pads before it. -/
def step {w : ℕ} (p : Pads w) : Device :=
  if p.csn then { d with last := p.datain, got := 0, data := [] }
  else if p.oeData && p.oeClk && decide (d.got < 3) then
    { d with last := p.datain, got := d.got + 1, words := shiftIn d.words d.last }
  else if p.rwdsOe && decide (d.got = 3) then
    { d with
      last := p.datain, data := d.data ++ [d.last]
      mem := if d.ca.msb then d.mem else d.store (lineOf d.ca) d.data.length d.last }
  else { d with last := p.datain }

variable {d} {w : ℕ} {p : Pads w}

@[simp] theorem step_last : (d.step p).last = p.datain := by
  unfold step
  split_ifs <;> rfl

theorem step_deselected (hp : p.csn = true) : (d.step p).got = 0 := by
  simp [step, hp]

theorem step_word (hc : p.csn = false) (ho : p.oeData = true) (hk : p.oeClk = true)
    (hg : d.got < 3) :
    (d.step p).got = d.got + 1 ∧ (d.step p).words = shiftIn d.words d.last := by
  simp [step, hc, ho, hk, hg]

/-- Without a clocked word the command stays as it is. -/
theorem step_noWord (hc : p.csn = false) (hno : p.oeData = false ∨ p.oeClk = false ∨ 3 ≤ d.got) :
    (d.step p).got = d.got ∧ (d.step p).words = d.words := by
  have hw : (p.oeData && p.oeClk && decide (d.got < 3)) = false := by
    rcases hno with h | h | h <;> simp [h]
  unfold step
  rw [if_neg (by simp [hc]), if_neg (by simp [hw])]
  split_ifs <;> exact ⟨rfl, rfl⟩

/-- Only a write command stores. -/
theorem step_mem (h : p.rwdsOe = true → d.got = 3 → d.ca.msb = true) :
    (d.step p).mem = d.mem := by
  unfold step
  split_ifs with hc hw hs hm
  · rfl
  · rfl
  · rfl
  · rw [Bool.and_eq_true, decide_eq_true_eq] at hs
    exact absurd (h hs.1 hs.2) hm
  · rfl

/-- After the command a clock takes a data halfword in under `rwds_oe`. -/
theorem step_data (hc : p.csn = false) (hg : d.got = 3) :
    (d.step p).data = if p.rwdsOe then d.data ++ [d.last] else d.data := by
  unfold step
  rw [if_neg (by simp [hc]), if_neg (by simp [hg])]
  cases p.rwdsOe <;> simp [hg]

/-- Before the command is complete there is no data. -/
theorem step_data_nil (h : p.csn = true ∨ d.data = [] ∧ d.got < 3) : (d.step p).data = [] := by
  rcases h with hc | ⟨hd, hg⟩
  · simp [step, hc]
  · have hne : (p.rwdsOe && decide (d.got = 3)) = false := by simp [hg.ne]
    simp only [step, hne, Bool.false_eq_true, if_false]
    split_ifs <;> first | rfl | exact hd

end Device

/-! ## A command under way -/

/-- The stages of a bus machine that sends a command. -/
inductive Stage
  | rest
  | wait
  | word0
  | word1
  | word2
  | tail
  | turn
  | sent
  | done
  deriving DecidableEq, Repr

namespace Stage

/-- The stage of a machine from its state and counter. -/
def of (state : FsmState) (counter : ℕ) : Stage :=
  match state with
  | .idle => rest
  | .ca =>
    match counter with
    | 0 => wait
    | 1 => word0
    | 2 => word1
    | 3 => word2
    | _ => tail
  | .run => if counter = 0 then turn else sent
  | .done => done

/-- One clock of a machine, with the first words of its shift register. -/
def Next (st st' : Stage) (words words' : Fin 3 → BitVec 16) : Prop :=
  match st with
  | rest => st' = rest ∨ st' = wait
  | wait => (st' = wait ∨ st' = word0) ∧ words' = words
  | word0 => st' = word1 ∧ words' slot0 = words slot1 ∧ words' slot1 = words slot2
  | word1 => st' = word2 ∧ words' slot0 = words slot1
  | word2 => st' = tail
  | tail => st' = turn
  | turn => st' = sent
  | sent => st' = sent ∨ st' = done
  | done => st' = rest

/-- What the output registers take from a machine that has the bus. -/
def Drives {w : ℕ} (st : Stage) (words : Fin 3 → BitVec 16) (p : Pads w) : Prop :=
  match st with
  | rest => p.csn = true ∧ p.oeData = false
  | wait => p.csn = false ∧ p.oeData = false
  | word0 => p.csn = false ∧ p.oeData = true ∧ p.oeClk = false ∧ p.datain = words slot0
  | word1 | word2 | tail =>
    p.csn = false ∧ p.oeData = true ∧ p.oeClk = true ∧ p.datain = words slot0
  | turn | sent => p.csn = false
  | done => True

end Stage

/-- The command `D` under way : the words still in the machine, those on the pads and those in
the device, by the stage of the machine. -/
def Command {w : ℕ} (st : Stage) (D : BitVec 48) (words : Fin 3 → BitVec 16) (p : Pads w)
    (d : Device) : Prop :=
  match st with
  | .rest => True
  | .wait => words = caWords D ∧ (p.csn = true ∨ d.got = 0) ∧ p.oeData = false
  | .word0 => words = caWords D ∧ (p.csn = true ∨ d.got = 0) ∧ p.oeData = false
  | .word1 =>
    words slot0 = caWords D slot1 ∧ words slot1 = caWords D slot2 ∧ d.got = 0 ∧ p.csn = false ∧
      p.oeClk = false ∧ p.datain = caWords D slot0
  | .word2 =>
    words slot0 = caWords D slot2 ∧ d.got = 0 ∧ d.last = caWords D slot0 ∧ p.csn = false ∧
      p.oeData = true ∧ p.oeClk = true ∧ p.datain = caWords D slot1
  | .tail =>
    d.got = 1 ∧ d.words slot2 = caWords D slot0 ∧ d.last = caWords D slot1 ∧ p.csn = false ∧
      p.oeData = true ∧ p.oeClk = true ∧ p.datain = caWords D slot2
  | .turn =>
    d.got = 2 ∧ d.words slot1 = caWords D slot0 ∧ d.words slot2 = caWords D slot1 ∧
      d.last = caWords D slot2 ∧ p.csn = false ∧ p.oeData = true ∧ p.oeClk = true
  | .sent | .done => d.got = 3 ∧ d.words = caWords D ∧ p.csn = false

section command

variable {w : ℕ} {st st' : Stage} {D : BitVec 48} {words words' : Fin 3 → BitVec 16}
  {p p' : Pads w} {d : Device}

/-- A device that is not clocked before the first word has received none. -/
theorem Device.got_step_wait (hp : p.csn = true ∨ d.got = 0) (ho : p.oeData = false) :
    (d.step p).got = 0 := by
  cases hc : p.csn
  case true => exact Device.step_deselected hc
  case false =>
    rw [(Device.step_noWord hc (.inl ho)).1]
    simpa [hc] using hp

/-- One clock of a command under way. -/
theorem Command.step (h : Command st D words p d) (hn : st.Next st' words words')
    (ho : st.Drives words p') (hload : st = .rest → st' = .wait → words' = caWords D) :
    Command st' D words' p' (d.step p) := by
  cases st
  case rest =>
    rcases hn with rfl | rfl
    · trivial
    · exact ⟨hload rfl rfl, .inl ho.1, ho.2⟩
  case wait =>
    obtain ⟨hw, hp, hoe⟩ := h
    obtain ⟨rfl | rfl, rfl⟩ := hn
    · exact ⟨hw, .inr (Device.got_step_wait hp hoe), ho.2⟩
    · exact ⟨hw, .inr (Device.got_step_wait hp hoe), ho.2⟩
  case word0 =>
    obtain ⟨hw, hp, hoe⟩ := h
    obtain ⟨rfl, h0, h1⟩ := hn
    obtain ⟨hc, -, hk, hd⟩ := ho
    exact ⟨by rw [h0, hw], by rw [h1, hw], Device.got_step_wait hp hoe, hc, hk, by rw [hd, hw]⟩
  case word1 =>
    obtain ⟨h1, h2, hg, hc, hk, hd⟩ := h
    obtain ⟨rfl, h0⟩ := hn
    obtain ⟨hc', ho', hk', hd'⟩ := ho
    refine ⟨h0.trans h2, ?_, by rw [Device.step_last, hd], hc', ho', hk', hd'.trans h1⟩
    rw [(Device.step_noWord hc (.inr (.inl hk))).1, hg]
  case word2 =>
    obtain ⟨h2, hg, hl, hc, hoe, hk, hd⟩ := h
    obtain rfl := hn
    obtain ⟨hc', ho', hk', hd'⟩ := ho
    obtain ⟨hg', hw'⟩ := Device.step_word hc hoe hk (by omega : d.got < 3)
    exact ⟨by rw [hg', hg], by rw [hw']; exact hl, by rw [Device.step_last, hd], hc', ho', hk',
      hd'.trans h2⟩
  case tail =>
    obtain ⟨hg, hw0, hl, hc, hoe, hk, hd⟩ := h
    obtain rfl := hn
    obtain ⟨hc', ho', hk', -⟩ := ho
    obtain ⟨hg', hw'⟩ := Device.step_word hc hoe hk (by omega : d.got < 3)
    exact ⟨by rw [hg', hg], by rw [hw']; exact hw0, by rw [hw']; exact hl,
      by rw [Device.step_last, hd], hc', ho', hk'⟩
  case turn =>
    obtain ⟨hg, hw0, hw1, hl, hc, hoe, hk⟩ := h
    obtain rfl := hn
    obtain ⟨hg', hw'⟩ := Device.step_word hc hoe hk (by omega : d.got < 3)
    refine ⟨by rw [hg', hg], ?_, ho⟩
    rw [hw']
    funext k
    fin_cases k
    · exact hw0
    · exact hw1
    · exact hl
  case sent =>
    obtain ⟨hg, hw, hc⟩ := h
    obtain ⟨hg', hw'⟩ := Device.step_noWord hc (.inr (.inr hg.ge))
    rcases hn with rfl | rfl
    · exact ⟨hg'.trans hg, hw'.trans hw, ho⟩
    · exact ⟨hg'.trans hg, hw'.trans hw, ho⟩
  case done =>
    obtain rfl := hn
    trivial

/-- Until it is sent the device has not all of the command. -/
theorem Command.got_lt (h : Command st D words p d) (hr : st ≠ .rest) (hs : st ≠ .sent)
    (hd : st ≠ .done) : p.csn = true ∨ d.got < 3 := by
  cases st
  case rest => exact absurd rfl hr
  case sent => exact absurd rfl hs
  case done => exact absurd rfl hd
  case wait => exact h.2.1.imp_right fun hg => by omega
  case word0 => exact h.2.1.imp_right fun hg => by omega
  case word1 => exact .inr (by have := h.2.2.1; omega)
  case word2 => exact .inr (by have := h.2.1; omega)
  case tail => exact .inr (by have := h.1; omega)
  case turn => exact .inr (by have := h.1; omega)

/-- Once it is sent the device has the command. -/
theorem Command.ca_eq (h : Command st D words p d) (hs : st = .sent ∨ st = .done) : d.ca = D := by
  have hw : d.words = caWords D := by
    rcases hs with rfl | rfl
    · exact h.2.1
    · exact h.2.1
  rw [Device.ca, hw]
  simp only [caWords, slot0, slot1, slot2, Matrix.cons_val_zero, Matrix.cons_val_one,
    Matrix.cons_val]
  rw [BitVec.extractLsb'_append_extractLsb'_eq_extractLsb' (by rfl),
    BitVec.extractLsb'_append_extractLsb'_eq_extractLsb' (by rfl)]
  simp

end command

/-! ## The device of a run -/

/-- The device along a run of a controller, `d` at reset. -/
def Ctrl.Run.device {v : Variant} (r : Ctrl.Run v) (d : Device) : ℕ → Device
  | 0 => d
  | t + 1 => (device r d t).step (r.state t).pads

end HyperRam
