import Mathlib.Data.Nat.Count
import Mathlib.Order.Interval.Finset.Nat

/-!
# Events of a run

An event is a predicate on cycles. Events are counted with `Nat.count`, and `count_balance` is the
rule that ties two counts together : what came in is what went out plus what is pending.
`window_count` counts in a window of cycles, and `measure_stalls` counts the cycles in which a
measure that falls otherwise stood still.

`log` collects the items of the cycles in order. `log_balance` is the same rule for it : each cycle
pays out of what is owed and owes what comes in, so what was paid and what is owed make up what came
in. It is how a trace of outputs is compared with one of requests.

`opened_by` finds the cycle that opened the interval a run is in, `exists_firstFrom` and
`exists_first` the first cycle of an event. `Rising` is the cycle in which a signal goes up,
`pulses` counts these, and `upFor` the cycles that a signal has been up without a break.
-/

namespace Clocked

variable {α β : Type*}

/-! ## Counts -/

section count

variable {p q : ℕ → Prop} [DecidablePred p] [DecidablePred q]

/-- Each `q` makes one `p` pending, each `p` settles one, and `f` counts what is pending. -/
theorem count_balance {f : ℕ → ℕ} (hp : ¬p 0) (h0 : f 0 = 0)
    (hs : ∀ t, f (t + 1) + (if p (t + 1) then 1 else 0) = f t + if q t then 1 else 0) :
    ∀ t, Nat.count p (t + 1) + f t = Nat.count q t
  | 0 => by simp [Nat.count_succ, hp, h0]
  | t + 1 => by
    have ih := count_balance hp h0 hs t
    have ht := hs t
    rw [Nat.count_succ p (t + 1), Nat.count_succ q t]
    omega

/-- An event splits into the cycles with and without another. -/
theorem count_split (hqp : ∀ t, q t → p t) :
    ∀ t, Nat.count p t = Nat.count q t + Nat.count (fun u => p u ∧ ¬q u) t
  | 0 => rfl
  | t + 1 => by
    have hqt := hqp t
    rw [Nat.count_succ p, Nat.count_succ q, Nat.count_succ _ t, count_split hqp t]
    split_ifs <;> first | omega | simp_all

/-- No event in `[a, b)` : the count stands. -/
theorem count_eq_of_quiet {a b : ℕ} (hab : a ≤ b) (h : ∀ u, a ≤ u → u < b → ¬p u) :
    Nat.count p b = Nat.count p a := by
  obtain ⟨n, rfl⟩ := Nat.exists_eq_add_of_le hab
  have h0 : Nat.count (fun k => p (a + k)) n = 0 :=
    Nat.count_iff_forall_not.2 fun k hk => h (a + k) (by omega) (by omega)
  rw [Nat.count_add, h0, Nat.add_zero]

/-- A measure that stands in the cycles with `p` and goes down by one in the others, as far as
cycle `n + m`. -/
theorem measure_stalls {f : ℕ → ℕ} {n m : ℕ}
    (h : ∀ k < m, f (n + k + 1) + (if p (n + k) then 0 else 1) = f (n + k)) :
    ∀ k ≤ m, f (n + k) + k = f n + Nat.count (fun j => p (n + j)) k
  | 0, _ => by simp
  | k + 1, hk => by
    have ih := measure_stalls h k (by omega)
    have hstep := h k (by omega)
    rw [Nat.count_succ, show n + (k + 1) = n + k + 1 from rfl]
    split_ifs at hstep ⊢ <;> omega

end count

/-- The events in the window `(a, b]` from the counts up to its ends. -/
theorem window_count (p : ℕ → Prop) [DecidablePred p] {a b : ℕ} (hab : a ≤ b) :
    ((Finset.Ioc a b).filter p).card + Nat.count p (a + 1) = Nat.count p (b + 1) := by
  induction b, hab using Nat.le_induction with
  | base => simp
  | succ b hab ih =>
    have hins : Finset.Ioc a (b + 1) = insert (b + 1) (Finset.Ioc a b) := by
      ext x
      simp only [Finset.mem_Ioc, Finset.mem_insert]
      omega
    rw [Nat.count_succ p (b + 1), ← ih, hins, Finset.filter_insert]
    split_ifs with hp
    · rw [Finset.card_insert_of_notMem (by simp)]
      omega
    · omega

/-- If `p` only rises after a cycle with `q`, every cycle `t` with `p` belongs to an interval
opened by some earlier cycle with `q`. -/
theorem opened_by {p q : ℕ → Prop} (h0 : ¬p 0) (hrise : ∀ t, ¬p t → p (t + 1) → q t) :
    ∀ t, p t → ∃ u < t, q u ∧ ¬p u ∧ ∀ x, u < x → x ≤ t → p x
  | 0, h => absurd h h0
  | t + 1, h => by
    by_cases hb : p t
    · obtain ⟨u, hu, hgo, hnb, hx⟩ := opened_by h0 hrise t hb
      refine ⟨u, by omega, hgo, hnb, fun x hux hxt => ?_⟩
      rcases Nat.lt_or_ge t x with hlt | hge
      · obtain rfl : x = t + 1 := by omega
        exact h
      · exact hx x hux hge
    · refine ⟨t, by omega, hrise t hb h, hb, fun x hux hxt => ?_⟩
      obtain rfl : x = t + 1 := by omega
      exact h

/-- From cycle `a` on the event is there after `n` cycles for the first time. -/
def FirstFrom (p : ℕ → Prop) (a n : ℕ) : Prop :=
  p (a + n) ∧ ∀ k < n, ¬p (a + k)

/-- An event that takes place does so for a first time. -/
theorem exists_firstFrom {p : ℕ → Prop} {a : ℕ} (h : ∃ n, p (a + n)) : ∃ n, FirstFrom p a n := by
  classical
  exact ⟨Nat.find h, Nat.find_spec h, fun _ hk => Nat.find_min h hk⟩

/-- Before that it has not been. -/
theorem FirstFrom.not_before {p : ℕ → Prop} {a n x : ℕ} (h : FirstFrom p a n) (hx : a ≤ x)
    (hxn : x < a + n) : ¬p x := by
  obtain ⟨k, rfl⟩ := Nat.exists_eq_add_of_le hx
  exact h.2 k (by omega)

/-- If a signal goes up between `a` and `b` there is a first time. -/
theorem exists_first {f : ℕ → Bool} {a b : ℕ} (h : ¬∀ x, a < x → x < b → f x = false) :
    ∃ k, a < k ∧ k < b ∧ f k = true ∧ ∀ x, a < x → x < k → f x = false := by
  have hex : ∃ k, a < k ∧ k < b ∧ f k = true := by
    by_contra hno
    exact h fun x hx hxb => Bool.eq_false_iff.2 fun hup => hno ⟨x, hx, hxb, hup⟩
  obtain ⟨hlt, hb, hup⟩ := Nat.find_spec hex
  refine ⟨Nat.find hex, hlt, hb, hup, fun x hx hxk => Bool.eq_false_iff.2 fun hfx => ?_⟩
  exact Nat.find_min hex hxk ⟨hx, by omega, hfx⟩

/-! ## Logs -/

/-- The items of the cycles before `t`, in order. -/
def log (f : ℕ → List α) (t : ℕ) : List α :=
  (List.range t).flatMap f

@[simp] theorem log_zero (f : ℕ → List α) : log f 0 = [] :=
  rfl

theorem log_succ (f : ℕ → List α) (t : ℕ) : log f (t + 1) = log f t ++ f t := by
  simp [log, List.range_succ]

/-- A log depends on the cycles before its own only. -/
theorem log_congr {f g : ℕ → List α} :
    ∀ {t}, (∀ u, u < t → f u = g u) → log f t = log g t
  | 0, _ => rfl
  | t + 1, h => by
    rw [log_succ, log_succ, log_congr fun u hu => h u (by omega), h t (by omega)]

/-- Cycles without items leave the log as it is. -/
theorem log_eq_of_quiet {f : ℕ → List α} {a b : ℕ} (hab : a ≤ b)
    (h : ∀ u, a ≤ u → u < b → f u = []) : log f b = log f a := by
  induction b, hab using Nat.le_induction with
  | base => rfl
  | succ b hab ih =>
    rw [log_succ, h b hab (by omega), List.append_nil, ih fun u hau hub => h u hau (by omega)]

theorem log_flatMap (f : ℕ → List α) (g : α → List β) (t : ℕ) :
    (log f t).flatMap g = log (fun u => (f u).flatMap g) t :=
  List.flatMap_assoc

/-- Each cycle pays `f` out of what is owed, `d`, and owes what comes in, `g` : the log of what
was paid and what is still owed make up the log of what came in. -/
theorem log_balance {f g d : ℕ → List α} (h0 : d 0 = [])
    (hs : ∀ t, d t ++ g t = f t ++ d (t + 1)) : ∀ t, log f t ++ d t = log g t
  | 0 => by simp [h0]
  | t + 1 => by
    rw [log_succ, log_succ, ← log_balance h0 hs t, List.append_assoc, List.append_assoc, hs t]

/-! ## Pulses -/

/-- The signal `f` goes up in cycle `t`. -/
def Rising (f : ℕ → Bool) (t : ℕ) : Prop :=
  f t = true ∧ (t = 0 ∨ f (t - 1) = false)

instance (f : ℕ → Bool) : DecidablePred (Rising f) :=
  fun t => inferInstanceAs (Decidable (f t = true ∧ (t = 0 ∨ f (t - 1) = false)))

/-- Pulses of `f` that began before cycle `t`. -/
def pulses (f : ℕ → Bool) (t : ℕ) : ℕ :=
  Nat.count (Rising f) t

/-- A signal that never stays up pulses in each cycle it is up. -/
theorem pulses_eq_count {f : ℕ → Bool} (h : ∀ t, f t = true → f (t + 1) = false) (t : ℕ) :
    pulses f t = Nat.count (fun u => f u = true) t := by
  unfold pulses
  congr 1
  funext u
  refine propext ⟨fun hu => hu.1, fun hu => ⟨hu, ?_⟩⟩
  cases u with
  | zero => exact .inl rfl
  | succ u =>
    refine .inr (Bool.eq_false_iff.2 fun hup => ?_)
    simp [h u hup] at hu

/-- The signal `f` is up in cycle `t` for the first time. -/
def FirstUp (f : ℕ → Bool) (t : ℕ) : Prop :=
  f t = true ∧ ∀ u < t, f u = false

theorem FirstUp.unique {f : ℕ → Bool} {t u : ℕ} (ht : FirstUp f t) (hu : FirstUp f u) : t = u := by
  rcases Nat.lt_trichotomy t u with hlt | heq | hgt
  · exact absurd (ht.1.symm.trans (hu.2 t hlt)) (by simp)
  · exact heq
  · exact absurd (hu.1.symm.trans (ht.2 u hgt)) (by simp)

/-- A signal that goes up does so for a first time. -/
theorem exists_firstUp {f : ℕ → Bool} (h : ∃ t, f t = true) : ∃ t, FirstUp f t :=
  ⟨Nat.find h, Nat.find_spec h, fun _ hu => Bool.eq_false_iff.2 (Nat.find_min h hu)⟩

/-- The number of cycles that `f` has been up without a break, the cycle `t` the last of them. -/
def upFor (f : ℕ → Bool) : ℕ → ℕ
  | 0 => if f 0 then 1 else 0
  | t + 1 => if f (t + 1) then upFor f t + 1 else 0

theorem le_upFor_iff {f : ℕ → Bool} :
    ∀ {t n : ℕ}, n ≤ upFor f t ↔ ∀ k, k < n → k ≤ t ∧ f (t - k) = true
  | _, 0 => by simp
  | 0, n + 1 => by
    refine ⟨fun h k hk => ?_, fun h => ?_⟩
    · cases hf : f 0 <;> simp [upFor, hf] at h
      obtain rfl : k = 0 := by omega
      exact ⟨le_rfl, hf⟩
    · have h0 := (h 0 (by omega)).2
      have hn := (h n (by omega)).1
      simpa [upFor, h0] using hn
  | t + 1, n + 1 => by
    have ih := @le_upFor_iff f t n
    refine ⟨fun h k hk => ?_, fun h => ?_⟩
    · cases hf : f (t + 1) <;> simp [upFor, hf] at h
      cases k with
      | zero => exact ⟨by omega, hf⟩
      | succ k =>
        obtain ⟨hkt, hup⟩ := ih.1 h k (by omega)
        exact ⟨by omega, by rwa [Nat.add_sub_add_right]⟩
    · have h0 : f (t + 1) = true := (h 0 (by omega)).2
      have hle : n ≤ upFor f t := ih.2 fun k hk => by
        obtain ⟨hkt, hup⟩ := h (k + 1) (by omega)
        exact ⟨by omega, by rwa [Nat.add_sub_add_right] at hup⟩
      simpa [upFor, h0] using hle

/-- Cycles `x ≤ y` of one assertion of `f` : it is up from one to the other. -/
def SameAssertion (f : ℕ → Bool) (x y : ℕ) : Prop :=
  ∀ z, x ≤ z → z ≤ y → f z = true

end Clocked
