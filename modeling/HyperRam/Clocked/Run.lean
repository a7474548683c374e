import Mathlib.Data.Nat.Init

/-!
# Runs of clocked machines

A clocked machine is a step function `σ → ι → σ` : the registers after a clock edge from the
registers and the inputs before it. `Run init step` is an infinite run from a state in
`init`, with its input stream. The rules below are the ones every safety and liveness proof
uses :

* an invariant holds along a run (`Run.invariant`), and from a reset on if the reset establishes it
  and every step keeps it (`Run.invariant_afterReset`);
* a relation holds along two runs while each step keeps it (`trace_rel`), and maps of the
  states and the inputs that commute with the clock take runs to runs (`Run.map`);
* a measure that falls until a goal is met, and stands no longer than a fair input lets it, reaches
  the goal (`exists_of_progress`), and on a constant input it just falls (`exists_trace`);
* a count that goes down by one in each cycle tells the cycle (`countdown`).
-/

namespace Clocked

variable {σ ι τ κ : Type*}

/-! ## Traces -/

/-- The states from `s` under the input stream `i`. -/
def trace (step : σ → ι → σ) (s : σ) (i : ℕ → ι) : ℕ → σ
  | 0 => s
  | t + 1 => step (trace step s i t) (i t)

section trace

variable {step : σ → ι → σ} {s : σ} {i : ℕ → ι}

@[simp] theorem trace_zero : trace step s i 0 = s :=
  rfl

theorem trace_succ (t : ℕ) : trace step s i (t + 1) = step (trace step s i t) (i t) :=
  rfl

/-- Two runs stay related while each step keeps them related. -/
theorem trace_rel {step' : τ → κ → τ} {s' : τ} {i' : ℕ → κ} {R : σ → τ → Prop} (h0 : R s s')
    {n : ℕ} (hs : ∀ t, t < n → R (trace step s i t) (trace step' s' i' t) →
      R (trace step s i (t + 1)) (trace step' s' i' (t + 1))) :
    ∀ t, t ≤ n → R (trace step s i t) (trace step' s' i' t)
  | 0, _ => h0
  | t + 1, ht => hs t (by omega) (trace_rel h0 hs t (by omega))

end trace

/-- The rule for progress. Until the goal an invariant is kept and a measure does not grow, it
falls in every cycle that does not stall, and no stall is for good. -/
theorem exists_of_progress {f : ℕ → ℕ} {P Q S : ℕ → Prop}
    (hstep : ∀ t, P t → ¬Q t → P (t + 1) ∧ f (t + 1) ≤ f t ∧ (¬S t → f (t + 1) < f t))
    (hfair : ∀ t, P t → ∃ n, ¬S (t + n)) {t : ℕ} (ht : P t) : ∃ n, Q (t + n) := by
  induction hn : f t using Nat.strongRecOn generalizing t with
  | _ m ih =>
    obtain ⟨n, hgo⟩ := hfair t ht
    have hreach : ∀ k, (∃ j, Q (t + j)) ∨ P (t + k) ∧ f (t + k) ≤ f t := by
      intro k
      induction k with
      | zero => exact .inr ⟨ht, Nat.le_refl _⟩
      | succ k ihk =>
        rcases ihk with hq | ⟨hp, hle⟩
        · exact .inl hq
        by_cases hq : Q (t + k)
        · exact .inl ⟨k, hq⟩
        · obtain ⟨hp', hle', -⟩ := hstep (t + k) hp hq
          exact .inr ⟨hp', Nat.le_trans hle' hle⟩
    rcases hreach n with hq | ⟨hp, hle⟩
    · exact hq
    by_cases hq : Q (t + n)
    · exact ⟨n, hq⟩
    · obtain ⟨hp', -, hlt⟩ := hstep (t + n) hp hq
      obtain ⟨k, hk⟩ := ih (f (t + n + 1)) (by have := hlt hgo; omega) hp' rfl
      exact ⟨n + 1 + k, by rwa [← Nat.add_assoc, ← Nat.add_assoc]⟩

/-- If on a constant input an invariant is kept and a measure falls until the goal holds,
some cycle meets the goal. -/
theorem exists_trace {step : σ → ι → σ} {x : ι} {P Q : σ → Prop} (f : σ → ℕ)
    (hinv : ∀ s, P s → ¬Q s → P (step s x))
    (hf : ∀ s, P s → ¬Q s → f (step s x) < f s) (s : σ) (hs : P s) :
    ∃ t, Q (trace step s (fun _ => x) t) := by
  obtain ⟨n, hn⟩ := exists_of_progress (f := fun t => f (trace step s (fun _ => x) t))
    (P := fun t => P (trace step s (fun _ => x) t))
    (Q := fun t => Q (trace step s (fun _ => x) t)) (S := fun _ => False) (t := 0)
    (fun t hp hq => ⟨hinv _ hp hq, Nat.le_of_lt (hf _ hp hq), fun _ => hf _ hp hq⟩)
    (fun _ _ => ⟨0, not_false⟩) hs
  exact ⟨0 + n, hn⟩

/-- A measure that falls in every cycle until the goal holds gets there. -/
theorem exists_of_falls {f : ℕ → ℕ} {Q : ℕ → Prop} (h : ∀ t, ¬Q t → f (t + 1) < f t) :
    ∃ t, Q t := by
  obtain ⟨n, hn⟩ := exists_of_progress (P := fun _ => True) (S := fun _ => False) (t := 0)
    (fun t _ hq => ⟨trivial, Nat.le_of_lt (h t hq), fun _ => h t hq⟩)
    (fun _ _ => ⟨0, not_false⟩) trivial
  exact ⟨0 + n, hn⟩

/-- A count that goes down by one while it is above one. -/
theorem countdown {f : ℕ → ℕ} {n : ℕ}
    (h : ∀ k, f (n + k) + k = f n → 1 < f (n + k) → f (n + k + 1) + 1 = f (n + k)) :
    ∀ k, k < f n → f (n + k) + k = f n
  | 0, _ => rfl
  | k + 1, hk => by
    have ih := countdown h k (by omega)
    have hstep := h k ih (by omega)
    show f (n + k + 1) + (k + 1) = f n
    omega

/-! ## Runs -/

/-- An infinite run of `step` from a state in `init`. -/
structure Run (init : σ → Prop) (step : σ → ι → σ) where
  /-- Inputs in each cycle. -/
  input : ℕ → ι
  /-- Registers in each cycle. -/
  state : ℕ → σ
  start : init (state 0)
  clock : ∀ t, state (t + 1) = step (state t) (input t)

/-- The states after a clock under reset. -/
def AfterReset (step : σ → ι → σ) (rst : ι → Bool) (s : σ) : Prop :=
  ∃ s₀ i, rst i = true ∧ s = step s₀ i

namespace Run

variable {init : σ → Prop} {step : σ → ι → σ}

/-- The run of an input stream. -/
def ofInputs {s : σ} (hs : init s) (i : ℕ → ι) : Run init step where
  input := i
  state := trace step s i
  start := hs
  clock := trace_succ

variable (r : Run init step)

/-- What holds at the start and is kept by every step holds in every cycle. -/
theorem invariant {P : σ → Prop} (h0 : ∀ s, init s → P s) (hs : ∀ s x, P s → P (step s x)) :
    ∀ t, P (r.state t)
  | 0 => h0 _ r.start
  | t + 1 => by
    rw [r.clock]
    exact hs _ _ (invariant h0 hs t)

/-- What a reset establishes and every step keeps holds in every cycle of a run from a reset. -/
theorem invariant_afterReset {rst : ι → Bool} (r : Run (AfterReset step rst) step) {P : σ → Prop}
    (h0 : ∀ s x, rst x = true → P (step s x)) (hs : ∀ s x, P s → P (step s x)) :
    ∀ t, P (r.state t) :=
  r.invariant (by rintro _ ⟨s, x, hx, rfl⟩; exact h0 s x hx) hs

/-- The image of a run under maps of the states and the inputs that commute with the clock. -/
def map {init' : τ → Prop} {step' : τ → κ → τ} (f : σ → τ) (g : ι → κ)
    (h0 : ∀ s, init s → init' (f s)) (hs : ∀ s x, f (step s x) = step' (f s) (g x)) :
    Run init' step' where
  input t := g (r.input t)
  state t := f (r.state t)
  start := h0 _ r.start
  clock t := by rw [r.clock, hs]

end Run

end Clocked
