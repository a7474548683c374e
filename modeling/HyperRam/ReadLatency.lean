import HyperRam.Clocked.Events
import HyperRam.LineTransfer

/-!
# Where the data of a read starts

`rdreg_stm` and `rdmem_stm` next to each other, on the same inputs from reset, `stm_start` raised
once and held (`StartedOnce`). They go through `STATE_IDLE` and `STATE_CA` in step. In `STATE_RUN`
the register machine samples its halfword with counter 14, the memory machine its first one with
counter 16.

Up to the first `rwds` that a waiting machine sees (`FirstRwds`) both rest and then wait, for any
number of cycles (`IsBusStm.trace_rests`). From there on the clocks that are left count down one by
one (`IsBusStm.trace_left`). These are lemmas on bus machines, and each of the two gets from them
the cycle in which it samples and the one in which it first shows its valid bit : the halfwords are
on the pads 19 and 21 clocks after `rwds`.

So the two agree on the data only if the device shows the same in the two cycles
(`firstHalfword_agree_iff`). With a device that shows the number of the cycle they do not.
-/

namespace HyperRam

open Clocked

/-- `stm_start` goes up in cycle `t₀` and stays up, without a reset. -/
structure StartedOnce (is : ℕ → ReadIn) (t₀ : ℕ) : Prop where
  rst : ∀ t, (is t).rst = false
  start : ∀ t, (is t).stmStart = true ↔ t₀ ≤ t

/-- A machine that waits since cycle `t₀ + 1` sees `rwds` for the first time in cycle `n`. -/
structure FirstRwds (is : ℕ → ReadIn) (t₀ n : ℕ) : Prop where
  lt : t₀ < n
  up : (is n).rwdsIn = true
  low : ∀ k, t₀ < k → k < n → (is k).rwdsIn = false

/-- If `rwds` goes up at all there is a first time. -/
theorem exists_firstRwds {is : ℕ → ReadIn} {t₀ t : ℕ}
    (h : ¬∀ k, t₀ < k → k < t → (is k).rwdsIn = false) : ∃ n, FirstRwds is t₀ n := by
  obtain ⟨n, hlt, -, hup, hlow⟩ := exists_first (f := fun k => (is k).rwdsIn) h
  exact ⟨n, hlt, hup, hlow⟩

variable {is : ℕ → ReadIn} {t₀ n : ℕ}

/-! ## Start, wait, count -/

namespace IsBusStm

variable {σ : Type*} {words last : ℕ} {step : σ → ReadIn → σ} {bus : σ → BusStm words}
  {Inv : σ → Prop} {m : σ} (p : IsBusStm last step ReadIn.rst ReadIn.stmStart ReadIn.rwdsIn
    ReadIn.casig bus Inv) (hm : Inv m) (hidle : (bus m).state = .idle) (h : StartedOnce is t₀)
include p hm

theorem trace_inv : ∀ t, Inv (trace step m is t)
  | 0 => hm
  | t + 1 => p.inv_step _ _ (trace_inv t)

include h

theorem trace_next (t : ℕ) : (bus (trace step m is t)).Next last (is t).stmStart (is t).rwdsIn
    (is t).casig (bus (trace step m is (t + 1))) :=
  p.next _ _ (p.trace_inv hm t) (h.rst t)

include hidle

/-- The machine rests until `stm_start`. -/
theorem trace_idle : ∀ t, t ≤ t₀ → (bus (trace step m is t)).state = .idle
  | 0, _ => hidle
  | t + 1, ht => by
    have hst : (is t).stmStart = false := Bool.eq_false_iff.2 fun hst => by
      have := (h.start t).1 hst
      omega
    exact (p.trace_next hm h t).rest (trace_idle t (by omega)) hst

/-- It waits until `rwds`. -/
theorem trace_waits : ∀ t, t₀ < t → (∀ k, t₀ < k → k < t → (is k).rwdsIn = false) →
    (bus (trace step m is t)).Waits
  | 0, ht, _ => by omega
  | t + 1, ht, hlow => by
    have hn := p.trace_next hm h t
    rcases Nat.lt_or_ge t₀ t with hlt | hge
    · have hw := trace_waits t hlt fun k hk hkt => hlow k hk (by omega)
      exact hn.waits hw (hlow t hlt (by omega))
    · obtain rfl : t = t₀ := by omega
      obtain ⟨hs, hc, -⟩ := hn.idle (p.trace_idle hm hidle h t le_rfl)
      exact ⟨hs.trans (if_pos ((h.start t).2 le_rfl)), hc⟩

/-- Up to the first `rwds` it does one or the other. -/
theorem trace_rests (t : ℕ) (hlow : ∀ k, t₀ < k → k < t → (is k).rwdsIn = false) :
    (bus (trace step m is t)).state = .idle ∨ (bus (trace step m is t)).state = .ca := by
  rcases Nat.lt_or_ge t₀ t with hlt | hge
  · exact .inr (p.trace_waits hm hidle h t hlt hlow).1
  · exact .inl (p.trace_idle hm hidle h t hge)

/-- From the first `rwds` on the clocks that are left count down. -/
theorem trace_left (hn : FirstRwds is t₀ n) {k : ℕ} (hk : k < last + 7) :
    (bus (trace step m is (n + k))).left last + k = last + 7 := by
  have hleft : ∀ {t}, (bus (trace step m is t)).Waits →
      (bus (trace step m is t)).left last = last + 7 := fun hw => by
    simp [BusStm.left, hw.1, hw.2]
  have hfull := hleft (p.trace_waits hm hidle h n hn.lt hn.low)
  rw [← hfull] at hk ⊢
  refine countdown (f := fun t => (bus (trace step m is t)).left last) (fun j hj hlt => ?_) k hk
  have hle : (bus (trace step m is (n + j))).left last < last + 8 := by omega
  refine (p.trace_next hm h (n + j)).left_step (p.inv _ (p.trace_inv hm _)) (fun hw => ?_)
    (fun hs => ?_) fun hs => ?_
  · have hlen := hleft hw
    obtain rfl : j = 0 := by omega
    exact hn.up
  · exact absurd (BusStm.left_of_idle hs) hle.ne
  · exact absurd (BusStm.left_of_done hs) hlt.ne'

end IsBusStm

/-! ## The register machine -/

namespace RdregStm

variable {m : RdregStm} (hm : m.Inv) (hidle : m.state = .idle) (h : StartedOnce is t₀)
include hm hidle h

/-- The halfword is sampled 19 clocks after `rwds`. -/
theorem sampled (hn : FirstRwds is t₀ n) :
    (trace step m is (n + 20)).dataoutr = (is (n + 19)).dataout := by
  have hl := isBusStm.trace_left hm hidle h hn (show 19 < 14 + 7 by omega)
  have hinv : (trace step m is (n + 19)).Inv := isBusStm.trace_inv hm _
  obtain ⟨hs, hc⟩ := hinv.bus.run_of_left (by omega) (by omega)
  have hc14 : (trace step m is (n + 19)).counter = 14 := by
    simp only [bus_counter] at hc
    bv_omega
  simp only [bus_state] at hs
  rw [show n + 20 = n + 19 + 1 from rfl, trace_succ]
  simp [step, h.rst, hs, hc14]

/-- It is valid for the first time one clock later. -/
theorem firstUp_valid (hn : FirstRwds is t₀ n) :
    FirstUp (fun t => (trace step m is t).valid) (n + 20) := by
  have hinv : ∀ t, (trace step m is t).Inv := isBusStm.trace_inv hm
  refine ⟨?_, fun t ht => Bool.eq_false_iff.2 fun hv => ?_⟩
  · have hl := isBusStm.trace_left hm hidle h hn (show 20 < 14 + 7 by omega)
    exact (hinv (n + 20)).valid.2 ((hinv (n + 20)).bus.left_eq_one_iff.1 (by omega))
  · have hd := (hinv t).valid.1 hv
    rcases Nat.lt_or_ge t n with hlt | hge
    · have hrest := isBusStm.trace_rests hm hidle h t fun k hk hkt => hn.low k hk (by omega)
      simp [hd] at hrest
    · obtain ⟨k, rfl⟩ := Nat.exists_eq_add_of_le hge
      have hl := isBusStm.trace_left hm hidle h hn (show k < 14 + 7 by omega)
      rw [(hinv (n + k)).bus.left_eq_one_iff.2 hd] at hl
      omega

/-- Without `rwds` it is never valid. -/
theorem exists_firstRwds_of_valid {t : ℕ} (hv : (trace step m is t).valid = true) :
    ∃ n, FirstRwds is t₀ n :=
  exists_firstRwds fun hlow => by
    have hinv : (trace step m is t).Inv := isBusStm.trace_inv hm t
    have hrest := isBusStm.trace_rests hm hidle h t hlow
    simp [hinv.valid.1 hv] at hrest

end RdregStm

/-! ## The memory machine -/

namespace RdmemStm

variable {m : RdmemStm} (hm : m.Inv) (hidle : m.state = .idle) (h : StartedOnce is t₀)
include hm hidle h

/-- The counter of `STATE_RUN` starts five clocks after `rwds`. -/
theorem trace_run (hn : FirstRwds is t₀ n) {k : ℕ} (h5 : 5 ≤ k) (h37 : k ≤ 37) :
    (trace step m is (n + k)).state = .run ∧
      (trace step m is (n + k)).counter.toNat + 5 = k := by
  have hl := isBusStm.trace_left hm hidle h hn (show k < 32 + 7 by omega)
  have hinv : (trace step m is (n + k)).Inv := isBusStm.trace_inv hm _
  obtain ⟨hs, hc⟩ := hinv.bus.run_of_left (by omega) (by omega)
  simp only [bus_counter] at hc
  exact ⟨hs, by omega⟩

/-- The first halfword of the first word is sampled 21 clocks after `rwds`, the second one
clock later. -/
theorem sampled (hn : FirstRwds is t₀ n) :
    (trace step m is (n + 23)).dataoutr =
      (is (n + 21)).dataout ++ (is (n + 22)).dataout := by
  have hinv : ∀ t, (trace step m is t).Inv := isBusStm.trace_inv hm
  have hfirst : (trace step m is (n + 22)).dataoutr.extractLsb' 0 16 =
      (is (n + 21)).dataout := by
    obtain ⟨hs, hc⟩ := trace_run hm hidle h hn (k := 21) (by omega) (by omega)
    have hhalf : (trace step m is (n + 21)).innerCounter = false :=
      Bool.eq_false_iff.2 fun hh => by
        have := ((hinv (n + 21)).half.1 hh).2.2
        omega
    rw [show n + 22 = n + 21 + 1 from rfl, trace_succ,
      step_first (h.rst _) hs (by omega) (by omega) hhalf]
    exact extractLsb'_append_low _ _
  obtain ⟨hs, hc⟩ := trace_run hm hidle h hn (k := 22) (by omega) (by omega)
  have hhalf : (trace step m is (n + 22)).innerCounter = true :=
    (hinv (n + 22)).half.2 ⟨hs, by bv_omega, by omega⟩
  rw [show n + 23 = n + 22 + 1 from rfl, trace_succ,
    step_second (h.rst _) hs (by omega) (by omega) hhalf, ← hfirst]

/-- A word is valid for the first time in the clock after that. -/
theorem firstUp_wordvalid (hn : FirstRwds is t₀ n) :
    FirstUp (fun t => (trace step m is t).wordvalid) (n + 23) := by
  have hinv : ∀ t, (trace step m is t).Inv := isBusStm.trace_inv hm
  refine ⟨?_, fun t ht => Bool.eq_false_iff.2 fun hv => ?_⟩
  · obtain ⟨hs, hc⟩ := trace_run hm hidle h hn (k := 23) (by omega) (by omega)
    exact (hinv (n + 23)).wordvalid.2 ⟨hs, by bv_omega, by omega⟩
  · obtain ⟨hs, hc, -⟩ := (hinv t).wordvalid.1 hv
    rcases Nat.lt_or_ge t n with hlt | hge
    · have hrest := isBusStm.trace_rests hm hidle h t fun k hk hkt => hn.low k hk (by omega)
      simp [hs] at hrest
    · obtain ⟨k, rfl⟩ := Nat.exists_eq_add_of_le hge
      have hl := isBusStm.trace_left hm hidle h hn (show k < 32 + 7 by omega)
      simp only [BusStm.left, bus_state, bus_counter, hs] at hl
      bv_omega

end RdmemStm

/-! ## Both -/

/-- Both machines from reset on the same inputs : the halfword of `rdreg_stm` in its first valid
cycle is the upper half of the first word of `rdmem_stm` exactly if the device shows the same
19 and 21 clocks after `rwds`. -/
theorem firstHalfword_agree_iff (m : RdregStm) (m' : RdmemStm) {x : ReadIn} (hx : x.rst = true)
    (h : StartedOnce is t₀) :
    (∀ a b, FirstUp (fun t => (trace RdregStm.step (m.step x) is t).valid) a →
      FirstUp (fun t => (trace RdmemStm.step (m'.step x) is t).wordvalid) b →
      (trace RdregStm.step (m.step x) is a).dataoutr =
        (trace RdmemStm.step (m'.step x) is b).dataoutr.extractLsb' 16 16) ↔
    ∀ n, FirstRwds is t₀ n → (is (n + 19)).dataout = (is (n + 21)).dataout := by
  have hm := RdregStm.inv_reset (m := m) hx
  have hm' := RdmemStm.inv_reset (m := m') hx
  have hidle : (m.step x).state = .idle := by simp [RdregStm.step, hx]
  have hidle' : (m'.step x).state = .idle := by simp [RdmemStm.step, hx]
  have hupper : ∀ n, FirstRwds is t₀ n →
      (trace RdmemStm.step (m'.step x) is (n + 23)).dataoutr.extractLsb' 16 16 =
        (is (n + 21)).dataout := fun n hn => by
    rw [RdmemStm.sampled hm' hidle' h hn]
    exact BitVec.extractLsb'_append_eq_left
  constructor
  · intro hall n hn
    have := hall _ _ (RdregStm.firstUp_valid hm hidle h hn)
      (RdmemStm.firstUp_wordvalid hm' hidle' h hn)
    rwa [RdregStm.sampled hm hidle h hn, hupper n hn] at this
  · intro hall a b ha hb
    obtain ⟨n, hn⟩ := RdregStm.exists_firstRwds_of_valid hm hidle h ha.1
    obtain rfl := ha.unique (RdregStm.firstUp_valid hm hidle h hn)
    obtain rfl := hb.unique (RdmemStm.firstUp_wordvalid hm' hidle' h hn)
    rw [RdregStm.sampled hm hidle h hn, hupper n hn, hall n hn]

/-- `stm_start` and `rwds` up from the first cycle on, `dataout` as the device shows it. -/
def heldRead (dataout : ℕ → BitVec 16) (t : ℕ) : ReadIn where
  rst := false
  stmStart := true
  rwdsIn := true
  dataout := dataout t
  casig := 0

theorem startedOnce_heldRead (dataout : ℕ → BitVec 16) : StartedOnce (heldRead dataout) 0 where
  rst _ := rfl
  start t := by simp [heldRead]

theorem firstRwds_heldRead (dataout : ℕ → BitVec 16) : FirstRwds (heldRead dataout) 0 1 where
  lt := by decide
  up := rfl
  low k hk hk1 := by omega

/-- Registers at rest. -/
def RdregStm.rest : RdregStm :=
  ⟨false, false, false, true, false, 0, 0, .idle, fun _ => 0⟩

@[inherit_doc RdregStm.rest]
def RdmemStm.rest : RdmemStm :=
  ⟨false, false, false, true, 0, false, 0, .idle, fun _ => 0, false⟩

/-- A reset clock. -/
def readReset : ReadIn :=
  ⟨true, false, false, 0, 0⟩

/-- A device that shows one value all the time : both read it. -/
theorem firstHalfword_agree_iff_steady :
    (trace RdregStm.step (RdregStm.rest.step readReset) (heldRead fun _ => 7) 21).dataoutr =
      (trace RdmemStm.step (RdmemStm.rest.step readReset)
        (heldRead fun _ => 7) 24).dataoutr.extractLsb' 16 16 :=
  (firstHalfword_agree_iff .rest .rest (x := readReset) rfl (startedOnce_heldRead fun _ => 7)).2
    (fun _ _ => rfl) 21 24
    (RdregStm.firstUp_valid (RdregStm.inv_reset rfl) rfl (startedOnce_heldRead _)
      (firstRwds_heldRead _))
    (RdmemStm.firstUp_wordvalid (RdmemStm.inv_reset rfl) rfl (startedOnce_heldRead _)
      (firstRwds_heldRead _))

/-- A device that shows the number of the cycle : one reads 20, the other 22. -/
theorem firstHalfword_agree_fails :
    ¬∀ (m : RdregStm) (m' : RdmemStm) (x : ReadIn) (is : ℕ → ReadIn) (t₀ : ℕ),
      x.rst = true → StartedOnce is t₀ → ∀ a b,
      FirstUp (fun t => (trace RdregStm.step (m.step x) is t).valid) a →
      FirstUp (fun t => (trace RdmemStm.step (m'.step x) is t).wordvalid) b →
      (trace RdregStm.step (m.step x) is a).dataoutr =
        (trace RdmemStm.step (m'.step x) is b).dataoutr.extractLsb' 16 16 := by
  intro hall
  have hs := startedOnce_heldRead (BitVec.ofNat 16)
  have hn := firstRwds_heldRead (BitVec.ofNat 16)
  have hm := RdregStm.inv_reset (m := .rest) (i := readReset) rfl
  have hm' := RdmemStm.inv_reset (m := .rest) (i := readReset) rfl
  have heq := hall .rest .rest readReset _ 0 rfl hs _ _
    (RdregStm.firstUp_valid hm rfl hs hn) (RdmemStm.firstUp_wordvalid hm' rfl hs hn)
  rw [RdregStm.sampled hm rfl hs hn, RdmemStm.sampled hm' rfl hs hn] at heq
  exact absurd heq (by decide)

end HyperRam
