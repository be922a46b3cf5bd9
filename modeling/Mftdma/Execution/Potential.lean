import Mathlib.Algebra.BigOperators.Group.List.Basic
import Mathlib.Algebra.GroupWithZero.Nat
import Mftdma.Execution.Run

/-!
# Potentials of runs

`tally` adds up what the steps of a run count. If each step pays for what it gains out of
a potential and of what it costs, then a run does, and a run with more steps of some kind
than it could pay for has an idle one among them: a step of this kind that gains nothing.
-/

namespace Mftdma.Execution

universe u v

variable {σ : Type u} {ε : Type v} (step : σ → ε → Option σ)

/-- The sum of `f` over the steps of a run. -/
def tally (f : σ → ε → ℕ) : σ → List ε → ℕ
  | _, [] => 0
  | s, e :: es => f s e + (step s e).elim 0 fun t => tally f t es

variable {step} {potential : σ → ℕ} {gain cost : σ → ε → ℕ}

@[simp] theorem tally_nil (f : σ → ε → ℕ) (s : σ) : tally step f s [] = 0 := rfl

theorem tally_cons_of_step {f : σ → ε → ℕ} {s m : σ} {e : ε} {es : List ε}
    (here : step s e = some m) : tally step f s (e :: es) = f s e + tally step f m es := by
  rw [tally, here, Option.elim_some]

@[simp] theorem tally_zero (s : σ) (es : List ε) : tally step (fun _ _ => 0) s es = 0 := by
  induction es generalizing s with
  | nil => rfl
  | cons e es ih =>
      rw [tally, Nat.zero_add]
      cases step s e with
      | none => rfl
      | some m => exact ih m

theorem tally_mul (k : ℕ) (f : σ → ε → ℕ) (s : σ) (es : List ε) :
    tally step (fun a e => k * f a e) s es = k * tally step f s es := by
  induction es generalizing s with
  | nil => rfl
  | cons e es ih =>
      rw [tally, tally, Nat.mul_add]
      cases step s e with
      | none => rfl
      | some m => exact congrArg (k * f s e + ·) (ih m)

/-- Where the steps of a run count what they put out. -/
theorem tally_length {α : Type*} (out : σ → ε → List α) (s : σ) (es : List ε) :
    tally step (fun a e => (out a e).length) s es = (outputs step out s es).length := by
  induction es generalizing s with
  | nil => rfl
  | cons e es ih =>
      rw [outputs, List.length_append, tally]
      cases step s e with
      | none => rfl
      | some m => exact congrArg ((out s e).length + ·) (ih m)

/-- What a run gains is paid for by the potential that it uses up and by its costs. -/
theorem run_potential
    (amortized : ∀ a e b, step a e = some b → potential b + gain a e ≤ potential a + cost a e)
    {s t : σ} {es : List ε} (reach : run step s es = some t) :
    potential t + tally step gain s es ≤ potential s + tally step cost s es := by
  induction es generalizing s with
  | nil =>
      obtain rfl := Option.some.inj reach
      exact Nat.le_refl _
  | cons e es ih =>
      obtain ⟨m, hm, ht⟩ := run_cons_eq_some.mp reach
      have here := amortized s e m hm
      have rest := ih ht
      rw [tally_cons_of_step hm, tally_cons_of_step hm]
      omega

/-- A run gains at least one for each of its counted steps if all of these gain something. -/
theorem countP_le_tally {counted : ε → Bool} {s t : σ} {es : List ε}
    (busy : Along step (fun a e => counted e = true → 1 ≤ gain a e) s es)
    (reach : run step s es = some t) : es.countP counted ≤ tally step gain s es := by
  induction es generalizing s with
  | nil => exact Nat.le_refl _
  | cons e es ih =>
      obtain ⟨m, hm, ht⟩ := run_cons_eq_some.mp reach
      have rest := ih (busy.2 m hm) ht
      rw [tally_cons_of_step hm, List.countP_cons]
      split_ifs with here
      · have one := busy.1 here
        omega
      · omega

/-- A run is no longer than what it gains if every step gains something. -/
theorem length_le_tally {s t : σ} {es : List ε} (busy : ∀ a e, 1 ≤ gain a e)
    (reach : run step s es = some t) : es.length ≤ tally step gain s es := by
  have all : es.countP (fun _ => true) = es.length := congrFun List.countP_true es
  rw [← all]
  exact countP_le_tally (along_of_forall fun e _ a _ => busy a e) reach

/-- Among more counted steps than a run can pay for one is idle, if the others gain. -/
theorem exists_idle {counted : ε → Bool} {idle : σ → Prop}
    (amortized : ∀ a e b, step a e = some b → potential b + gain a e ≤ potential a + cost a e)
    (busy : ∀ a e b, step a e = some b → counted e = true → ¬ idle a → 1 ≤ gain a e)
    {s t : σ} {es : List ε} (reach : run step s es = some t)
    (many : potential s + tally step cost s es < es.countP counted) :
    ∃ xs e ys m, es = xs ++ e :: ys ∧ counted e = true ∧ run step s xs = some m ∧ idle m := by
  by_contra none
  have gains : Along step (fun a e => counted e = true → 1 ≤ gain a e) s es := by
    rw [along_iff_forall_split]
    intro xs e ys m split before here
    obtain ⟨b, hb, -⟩ := run_cons_eq_some.mp (run_of_run_append before (split ▸ reach))
    exact busy m e b hb here fun resting => none ⟨xs, e, ys, m, split, here, before, resting⟩
  have paid := run_potential amortized reach
  have counts := countP_le_tally gains reach
  omega

/-- What is counted at each event adds up to the sum over the events. -/
theorem tally_event (f : ε → ℕ) {s t : σ} {es : List ε} (reach : run step s es = some t) :
    tally step (fun _ e => f e) s es = (es.map f).sum := by
  induction es generalizing s with
  | nil => rfl
  | cons e es ih =>
      obtain ⟨m, hm, ht⟩ := run_cons_eq_some.mp reach
      rw [tally_cons_of_step hm, ih ht, List.map_cons, List.sum_cons]

/-- If steps pay for what they gain unless they stop, then a run that gains more than its level
and its costs can pay for stops. -/
theorem exists_stop {level : σ → ℤ} {P : σ → ε → Prop} {stop : σ → ε → σ → Prop}
    (amortized : ∀ a e b, P a e → step a e = some b → ¬ stop a e b →
      level b + gain a e ≤ level a + cost a e)
    {s t : σ} {es : List ε} (allowed : Along step P s es) (reach : run step s es = some t)
    (many : level s + tally step cost s es < level t + tally step gain s es) :
    ∃ xs e ys m b, es = xs ++ e :: ys ∧ run step s xs = some m ∧ step m e = some b ∧
      stop m e b := by
  induction es generalizing s with
  | nil =>
      obtain rfl := Option.some.inj reach
      exact absurd many (Int.lt_irrefl _)
  | cons e es ih =>
      obtain ⟨m, hm, ht⟩ := run_cons_eq_some.mp reach
      by_cases here : stop s e m
      · exact ⟨[], e, es, s, m, rfl, rfl, hm, here⟩
      · have paid := amortized s e m allowed.1 hm here
        rw [tally_cons_of_step hm, tally_cons_of_step hm] at many
        push_cast at many
        obtain ⟨xs, e', ys, m', b, rfl, before, found⟩ := ih (allowed.2 m hm) ht (by omega)
        exact ⟨e :: xs, e', ys, m', b, rfl, run_cons_eq_some.mpr ⟨m, hm, before⟩, found⟩

/-- If the steps that gain something pay for it unless they come to rest, then a run that gains
more than it can pay for comes to rest. -/
theorem exists_rest {rest : σ → Prop} {P : σ → ε → Prop}
    (amortized : ∀ a e b, P a e → step a e = some b → (0 < gain a e → ¬ rest b) →
      potential b + gain a e ≤ potential a + cost a e)
    {s t : σ} {es : List ε} (allowed : Along step P s es) (reach : run step s es = some t)
    (many : potential s + tally step cost s es < tally step gain s es) :
    ∃ xs e ys m b, es = xs ++ e :: ys ∧ run step s xs = some m ∧ step m e = some b ∧
      0 < gain m e ∧ rest b := by
  have paid : ∀ a e b, P a e → step a e = some b → ¬ (0 < gain a e ∧ rest b) →
      (potential b : ℤ) + gain a e ≤ potential a + cost a e := by
    intro a e b allowed step busy
    exact_mod_cast amortized a e b allowed step (not_and.mp busy)
  exact exists_stop paid allowed reach (by omega)

end Mftdma.Execution
