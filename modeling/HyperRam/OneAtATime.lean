import HyperRam.Requests

/-!
# One request at a time

The port discipline under which the memory results are stated (`OneAtATime`) : no `csr` access, an
`s0` request is issued in `IDLE` only, and its address and write data are held until the controller
is back in `IDLE`.

A request is issued in the cycle in which its port goes up (`Issues`), and is under way until the
controller is back (`UnderWay`). The edge registers are a clock behind the ports, so a request of
cycle `t` is accepted in cycle `t + 1` (`accepts_succ`), and the controller is at work from cycle
`t + 2` on. Other than for an issued request it is never at work (`exists_issues`).

From the discipline the captured address of a request stands still while the controller
is at work for it (`captured_step`), and is the address it was issued with (`captured_eq`). `row`
tells whether it is a read or a write (`row_eq`). All of that holds up to the first cycle back in
`IDLE`, where the answer of a read is on the port.
-/

namespace HyperRam

open Clocked

namespace Ctrl

namespace Run

variable {v : Variant} (r : Ctrl.Run v)

/-- An `s0` request is issued in cycle `t`. -/
def Issues (t : ℕ) : Prop :=
  Rising (Run.port r .s0Read) t ∨ Rising (Run.port r .s0Write) t

/-- The request issued in cycle `t` is under way in cycle `u` : the controller has not come
back to `IDLE`. It accepts the request in cycle `t + 1`. -/
def UnderWay (t u : ℕ) : Prop :=
  t < u ∧ ∀ x, t + 2 ≤ x → x ≤ u → (r.state x).core.state ≠ .idle

variable {r} in
/-- A request is under way until the controller is back in `IDLE`. -/
theorem UnderWay.lt {t u n : ℕ} (h : Run.UnderWay r t u) (hn : t + 2 ≤ n)
    (hidle : (r.state n).core.state = .idle) : u < n := by
  by_contra hge
  exact h.2 n hn (by omega) hidle

/-- One `s0` request at a time, held until the controller is back in `IDLE`. -/
structure OneAtATime : Prop where
  rst : ∀ t, (r.input t).rst = false
  csrRead : ∀ t, (r.input t).csrRead = false
  csrWrite : ∀ t, (r.input t).csrWrite = false
  single : ∀ t, ¬(Rising (Run.port r .s0Read) t ∧ Rising (Run.port r .s0Write) t)
  issued_idle : ∀ t, Run.Issues r t → (r.state t).core.state = .idle
  held : ∀ t u, Run.Issues r t → Run.UnderWay r t u → ¬Run.Issues r u ∧
    (r.input u).s0Address = (r.input t).s0Address ∧
    (r.input u).s0Writedata = (r.input t).s0Writedata

/-! ## Requests in slots -/

section slots

variable {r} {l k : List ℕ} (hread : ∀ t, (r.input t).s0Read = true → t ∈ l)
  (hwrite : ∀ t, (r.input t).s0Write = true → t ∈ k)
include hread hwrite

/-- Requests are issued in the cycles in which a port is up. -/
theorem Issues.mem_slots {t : ℕ} (ht : Run.Issues r t) : t ∈ l ++ k := by
  rcases ht with ht | ht
  · exact List.mem_append_left k (hread t ht.1)
  · exact List.mem_append_right l (hwrite t ht.1)

/-- Reads in the cycles `l` and writes in the cycles `k`, in which the controller is in `IDLE`, two
cycles apart at least and held until the next of them, are one at a time. -/
theorem OneAtATime.of_slots
    (hslots : (∀ t ∈ l, t ∉ k) ∧ ∀ t ∈ l ++ k, ∀ x ∈ l ++ k, t < x → t + 2 ≤ x)
    (hidle : ∀ t ∈ l ++ k, (r.state t).core.state = .idle)
    (hquiet : ∀ t, (r.input t).rst = false ∧ (r.input t).csrRead = false ∧
      (r.input t).csrWrite = false)
    (hheld : ∀ t ∈ l ++ k, ∀ u, t < u → (∀ x ∈ l ++ k, t < x → u < x) →
      (r.input u).s0Address = (r.input t).s0Address ∧
        (r.input u).s0Writedata = (r.input t).s0Writedata) : Run.OneAtATime r where
  rst t := (hquiet t).1
  csrRead t := (hquiet t).2.1
  csrWrite t := (hquiet t).2.2
  single t ht := hslots.1 t (hread t ht.1.1) (hwrite t ht.2.1)
  issued_idle t ht := hidle t (ht.mem_slots hread hwrite)
  held t u ht hu := by
    have hslot := ht.mem_slots hread hwrite
    have hnext : ∀ x ∈ l ++ k, t < x → u < x := fun x hx htx =>
      hu.lt (hslots.2 t hslot x hx htx) (hidle x hx)
    refine ⟨fun hui => ?_, hheld t hslot u hu.1 hnext⟩
    exact absurd (hnext u (hui.mem_slots hread hwrite) hu.1) (by omega)

end slots

/-! ## The request under way -/

namespace OneAtATime

variable {r} (h : Run.OneAtATime r)
include h

theorem regrRise_eq (t : ℕ) : (r.state t).core.edges.regrRise = false := by
  by_contra hrise
  obtain ⟨x, -, hx, -⟩ := rise_rising h.rst (q := .csrRead) (t := t) (Bool.not_eq_false _ ▸ hrise)
  simp [Run.port, Request.port, h.csrRead] at hx

theorem regwRise_eq (t : ℕ) : (r.state t).core.edges.regwRise = false := by
  by_contra hrise
  obtain ⟨x, -, hx, -⟩ := rise_rising h.rst (q := .csrWrite) (t := t) (Bool.not_eq_false _ ▸ hrise)
  simp [Run.port, Request.port, h.csrWrite] at hx

/-- A memory edge in cycle `t + 1` is a request issued in cycle `t`. -/
theorem issues_of_rise {t : ℕ} (hrise : (r.state t).core.edges.memrRise = true ∨
    (r.state t).core.edges.memwRise = true) : ∃ x, t = x + 1 ∧ Run.Issues r x := by
  rcases hrise with hrise | hrise
  · obtain ⟨x, hx, hup⟩ := rise_rising h.rst (q := .s0Read) hrise
    exact ⟨x, hx, .inl hup⟩
  · obtain ⟨x, hx, hup⟩ := rise_rising h.rst (q := .s0Write) hrise
    exact ⟨x, hx, .inr hup⟩

/-- No edge is up in the cycle a request is issued in. -/
theorem rise_eq_of_issues {t : ℕ} (ht : Run.Issues r t) :
    (r.state t).core.edges.memrRise = false ∧ (r.state t).core.edges.memwRise = false := by
  by_contra hrise
  have hup : (r.state t).core.edges.memrRise = true ∨ (r.state t).core.edges.memwRise = true := by
    cases hm : (r.state t).core.edges.memrRise <;> simp_all
  obtain ⟨x, rfl, hx⟩ := h.issues_of_rise hup
  exact (h.held x (x + 1) hx ⟨by omega, fun y hy hy' => by omega⟩).1 ht

/-- The controller is still in `IDLE` in the cycle after. -/
theorem idle_succ {t : ℕ} (ht : Run.Issues r t) : (r.state (t + 1)).core.state = .idle := by
  obtain ⟨hmemr, hmemw⟩ := h.rise_eq_of_issues ht
  rw [r.clock, step_core, coreStep_eq_registers (h.rst t)]
  simp [registers, h.issued_idle t ht, Core.dispatch, h.regrRise_eq, h.regwRise_eq, hmemr, hmemw]

/-- The request issued in cycle `t` is accepted in cycle `t + 1`. -/
theorem accepts_succ {t : ℕ} {q : Request} (hq : q = .s0Read ∨ q = .s0Write)
    (ht : Rising (Run.port r q) t) : (r.state (t + 1)).accepts = some q := by
  have hrise := (rise_succ h.rst q t).2 ht
  have hissues : Run.Issues r t := by
    rcases hq with rfl | rfl
    · exact .inl ht
    · exact .inr ht
  refine accepts_iff.2 ⟨hrise, h.idle_succ hissues, fun p hp => ?_⟩
  cases p
  case csrRead => exact h.regrRise_eq _
  case csrWrite => exact h.regwRise_eq _
  case s0Read =>
    rcases hq with rfl | rfl
    · simp [Request.priority] at hp
    · by_contra hread
      exact h.single t ⟨(rise_succ h.rst .s0Read t).1 (by simpa using hread), ht⟩
  case s0Write => rcases hq with rfl | rfl <;> simp [Request.priority] at hp

/-- Outside `IDLE` the controller is at work for an issued request. -/
theorem exists_issues {u : ℕ} (hu : (r.state u).core.state ≠ .idle) :
    ∃ t, Run.Issues r t ∧ t + 2 ≤ u ∧ Run.UnderWay r t u := by
  obtain ⟨a, hau, ⟨t, rfl, ht⟩, -, hbusy⟩ := opened_by
    (p := fun x => (r.state x).core.state ≠ .idle)
    (q := fun x => ∃ t, x = t + 1 ∧ Run.Issues r t)
    (by simp [(AfterReset.idle r.start).1, Core.reset]) (fun x hx hx' => by
      rw [not_not] at hx
      refine h.issues_of_rise ?_
      by_contra hno
      rw [not_or, Bool.not_eq_true, Bool.not_eq_true] at hno
      apply hx'
      rw [r.clock, step_core, coreStep_eq_registers (h.rst x)]
      simp [registers, hx, Core.dispatch, h.regrRise_eq, h.regwRise_eq, hno]) u hu
  exact ⟨t, ht, by omega, by omega, fun x hx hxu => hbusy x (by omega) hxu⟩

/-- No `csr` state is entered. -/
theorem state_ne (u : ℕ) :
    (r.state u).core.state ≠ .rdreg ∧ (r.state u).core.state ≠ .wrreg := by
  induction u with
  | zero => simp [(AfterReset.idle r.start).1, Core.reset]
  | succ u ih =>
    rw [r.clock, step_core, coreStep_eq_registers (h.rst u)]
    cases hs : (r.state u).core.state <;>
      simp only [registers, hs, Core.dispatch, h.regrRise_eq, h.regwRise_eq]
    case rdreg => exact absurd hs ih.1
    case wrreg => exact absurd hs ih.2
    all_goals (try split_ifs) <;> simp_all

/-- The captured address of a request under way, until the first cycle back in `IDLE`, is the
one it was issued with. -/
theorem captured_eq {t : ℕ} (ht : Run.Issues r t) :
    ∀ u, t < u → (∀ x, t + 2 ≤ x → x < u → (r.state x).core.state ≠ .idle) →
      (r.state u).pads.capturedS0Address = (r.input t).s0Address
  | 0, hu, _ => by omega
  | u + 1, hu, hbusy => by
    rw [r.clock, step_pads]
    simp only [padsStep, h.rst u, Bool.false_eq_true, if_false]
    rcases Nat.lt_or_ge t u with hlt | hge
    · have hheld := h.held t u ht ⟨hlt, fun x hx hxu => hbusy x hx (by omega)⟩
      rw [captured_eq ht u hlt fun x hx hxu => hbusy x hx (by omega), hheld.2.1]
      split_ifs <;> rfl
    · obtain rfl : t = u := by omega
      rw [if_pos]
      rcases ht with ht | ht
      · simp [show (r.input t).s0Read = true from ht.1]
      · simp [show (r.input t).s0Write = true from ht.1]

/-- `row` tells the direction of a request under way, until the first cycle back in `IDLE`. -/
theorem row_eq {t : ℕ} (ht : Run.Issues r t) :
    ∀ u, t + 2 ≤ u → (∀ x, t + 2 ≤ x → x < u → (r.state x).core.state ≠ .idle) →
      ((r.state u).core.row = true ↔ Rising (Run.port r .s0Read) t)
  | 0, hu, _ => by omega
  | u + 1, hu, hbusy => by
    rw [r.clock, step_core, coreStep_eq_registers (h.rst u)]
    rcases Nat.lt_or_ge (t + 1) u with hlt | hge
    · simp only [registers, hbusy u hlt (by omega), if_false]
      exact row_eq ht u hlt fun x hx hxu => hbusy x hx (by omega)
    · obtain rfl : t + 1 = u := by omega
      have hmemr := rise_succ h.rst .s0Read t
      have hmemw := rise_succ h.rst .s0Write t
      simp only [registers, h.idle_succ ht, if_true, Core.dispatchRow, h.regrRise_eq,
        h.regwRise_eq]
      simp only [Request.rise] at hmemr hmemw
      rw [← hmemr]
      rcases ht with ht | ht
      · simp [hmemr.2 ht]
      · cases hread : (r.state (t + 1)).core.edges.memrRise <;> simp [hmemw.2 ht]

/-- A clock at work keeps the captured address, and so does the one that leaves `IDLE`. -/
theorem captured_step {u : ℕ}
    (hu : (r.state u).core.state ≠ .idle ∨ (r.state (u + 1)).core.state ≠ .idle) :
    (r.state (u + 1)).pads.capturedS0Address = (r.state u).pads.capturedS0Address := by
  obtain ⟨t, ht, htu, hbusy⟩ : ∃ t, Run.Issues r t ∧ t < u ∧
      ∀ x, t + 2 ≤ x → x ≤ u → (r.state x).core.state ≠ .idle := by
    rcases hu with hu | hu
    · obtain ⟨t, ht, htu, -, hbusy⟩ := h.exists_issues hu
      exact ⟨t, ht, by omega, hbusy⟩
    · obtain ⟨t, ht, htu, -, hbusy⟩ := h.exists_issues hu
      exact ⟨t, ht, by omega, fun x hx hxu => hbusy x hx (by omega)⟩
  rw [h.captured_eq ht (u + 1) (by omega) fun x hx hxu => hbusy x hx (by omega),
    h.captured_eq ht u htu fun x hx hxu => hbusy x hx (by omega)]

end OneAtATime

end Run

end Ctrl

end HyperRam
