import Mathlib.Algebra.Order.BigOperators.Group.Finset
import Mathlib.Data.Fintype.BigOperators
import Mathlib.Data.Fintype.Card
import Mftdma.Execution.Potential
import Mftdma.Utils.Estimates

/-!
# The threads of `fullrun`

`num_jobs` threads run the simulation again and again, each with the loop of `sched_run`.
They share `end_run` and `cols`, which they read without the mutex, and the statistics, which
only `save_data` touches, under the mutex. A step of a thread is one such read or one critical
section, and the steps of the threads come in any order.

Whatever the order, no sample is lost or counted twice, all samples have the number of values
that the first one had, and the threads end: after the first check at which the counts suffice
no thread saves more than the sample that it is working on.
-/

namespace Mftdma.Utils

open Execution

/-- Where a thread is: at the head of its loop, waiting for the simulation, before the test of
`cols`, at the critical section that settles `cols`, at `save_data`, or ended. -/
inductive Phase where
  | head
  | running
  | compare (vals : List ℚ)
  | adopt (vals : List ℚ)
  | save (vals : List ℚ)
  | ended

/-- The shared variables and the threads. `exited` is a call of `exit` in a thread. -/
structure Pool (jobs : ℕ) where
  stats : Stats
  cols : ℤ
  endRun : Bool
  exited : Bool
  phase : Fin jobs → Phase

/-- A thread takes its next step, its simulation ends with these values on its standard output,
or the command cannot be executed. -/
inductive PoolEvent (jobs : ℕ) where
  | step (i : Fin jobs)
  | output (i : Fin jobs) (vals : List ℚ)
  | invalid (i : Fin jobs)

/-- The array `drp` that holds these values. -/
def drp (vals : List ℚ) (c : ℕ) : ℚ := vals.getD c 0

namespace Pool

variable {jobs : ℕ}

/-- `main`, before the threads run. -/
def init (jobs : ℕ) : Pool jobs where
  stats := .reset
  cols := -1
  endRun := true
  exited := false
  phase _ := .head

def goto (p : Pool jobs) (i : Fin jobs) (next : Phase) : Pool jobs :=
  { p with phase := Function.update p.phase i next }

/-- `while(end_run)` -/
def check (i : Fin jobs) (p : Pool jobs) : Pool jobs :=
  p.goto i (if p.endRun then .running else .ended)

/-- `if (num_vals != cols)`, read without the mutex. -/
def compare (i : Fin jobs) (vals : List ℚ) (p : Pool jobs) : Pool jobs :=
  p.goto i (if (vals.length : ℤ) ≠ p.cols then .adopt vals else .save vals)

/-- `if (cols == -1) cols = num_vals;` -/
def settled (vals : List ℚ) (p : Pool jobs) : ℤ := if p.cols = -1 then vals.length else p.cols

/-- The critical section of `sched_run`. -/
def adopt (i : Fin jobs) (vals : List ℚ) (p : Pool jobs) : Pool jobs :=
  if p.settled vals = 0 ∨ p.settled vals ≠ vals.length then
    { p with cols := p.settled vals, exited := true }.goto i .ended
  else { p with cols := p.settled vals }.goto i (.save vals)

/-- `save_data`, a critical section as a whole; `none` follows a NULL pointer. -/
def save (cfg : Setup) (i : Fin jobs) (vals : List ℚ) (p : Pool jobs) : Option (Pool jobs) :=
  (p.stats.saveData cfg p.cols.toNat (drp vals)).map fun (stats, stop) =>
    { p with stats := stats, endRun := p.endRun && !stop }.goto i .head

/-- The child of a `vfork` shares `end_run` and clears it when `execvp` fails. Its parent
reads nothing. -/
def fail (i : Fin jobs) (p : Pool jobs) : Pool jobs :=
  { p with endRun := false }.goto i (.compare [])

end Pool

/-- A step of the pool. Nothing happens after `exit`. -/
def poolStep {jobs : ℕ} (cfg : Setup) (p : Pool jobs) : PoolEvent jobs → Option (Pool jobs)
  | .step i =>
      if p.exited then none
      else
        match p.phase i with
        | .head => some (p.check i)
        | .running => none
        | .compare vals => some (p.compare i vals)
        | .adopt vals => some (p.adopt i vals)
        | .save vals => p.save cfg i vals
        | .ended => none
  | .output i vals =>
      if p.exited then none
      else
        match p.phase i with
        | .running => some (p.goto i (.compare vals))
        | _ => none
  | .invalid i =>
      if p.exited then none
      else
        match p.phase i with
        | .running => some (p.fail i)
        | _ => none

/-- The values that a step saves. -/
def saves {jobs : ℕ} (p : Pool jobs) : PoolEvent jobs → List (List ℚ)
  | .step i =>
      match p.phase i with
      | .save vals => [vals]
      | _ => []
  | _ => []

/-- The samples that the threads have saved, in order. -/
def saved {jobs : ℕ} (cfg : Setup) (es : List (PoolEvent jobs)) : List (List ℚ) :=
  outputs (poolStep cfg) saves (Pool.init jobs) es

/-- A number of samples at which `end_run` has been cleared. -/
def Setup.limit (cfg : Setup) : ℕ := (max cfg.minRuns cfg.numCycles / cfg.refresh + 1) * cfg.refresh

/-- The output that a thread holds. -/
def Phase.held : Phase → Multiset (List ℚ)
  | .compare vals => {vals}
  | .adopt vals => {vals}
  | .save vals => {vals}
  | _ => 0

/-- The output of a simulation. A command that cannot be executed puts out nothing. -/
def PoolEvent.produced {jobs : ℕ} : PoolEvent jobs → List (List ℚ)
  | .step _ => []
  | .output _ vals => [vals]
  | .invalid _ => [[]]

/-- Between the test of `end_run` and the end of `save_data`. -/
def Phase.busy : Phase → ℕ
  | .head => 0
  | .ended => 0
  | _ => 1

/-- Steps that a thread takes at most before it is at the head of its loop again. -/
def Phase.rank : Phase → ℕ
  | .head => 5
  | .running => 4
  | .compare _ => 3
  | .adopt _ => 2
  | .save _ => 1
  | .ended => 0

/-- A step of a pool that has not exited, by the phase of its thread. -/
inductive Moves {jobs : ℕ} (cfg : Setup) (p : Pool jobs) :
    PoolEvent jobs → Pool jobs → Prop
  | check (i : Fin jobs) (here : p.phase i = .head) : Moves cfg p (.step i) (p.check i)
  | compare (i : Fin jobs) (vals : List ℚ) (here : p.phase i = .compare vals) :
      Moves cfg p (.step i) (p.compare i vals)
  | adopt (i : Fin jobs) (vals : List ℚ) (here : p.phase i = .adopt vals) :
      Moves cfg p (.step i) (p.adopt i vals)
  | save (i : Fin jobs) (vals : List ℚ) (stats : Stats) (stop : Bool) (here : p.phase i = .save vals)
      (saved : p.stats.saveData cfg p.cols.toNat (drp vals) = some (stats, stop)) :
      Moves cfg p (.step i)
        ({ p with stats := stats, endRun := p.endRun && !stop }.goto i .head)
  | output (i : Fin jobs) (vals : List ℚ) (here : p.phase i = .running) :
      Moves cfg p (.output i vals) (p.goto i (.compare vals))
  | invalid (i : Fin jobs) (here : p.phase i = .running) : Moves cfg p (.invalid i) (p.fail i)

variable {jobs : ℕ} {cfg : Setup} {p q : Pool jobs} {e : PoolEvent jobs}

theorem moves_of_poolStep (step : poolStep cfg p e = some q) :
    p.exited = false ∧ Moves cfg p e q := by
  cases e with
  | step i =>
      simp only [poolStep] at step
      split at step
      · cases step
      · next running =>
          refine ⟨Bool.eq_false_iff.mpr running, ?_⟩
          split at step
          · next here => cases step; exact .check i here
          · cases step
          · next vals here => cases step; exact .compare i vals here
          · next vals here => cases step; exact .adopt i vals here
          · next vals here =>
              obtain ⟨⟨stats, stop⟩, saved, rfl⟩ := Option.map_eq_some_iff.mp step
              exact .save i vals stats stop here saved
          · cases step
  | output i vals =>
      simp only [poolStep] at step
      split at step
      · cases step
      · next running =>
          split at step
          · next here =>
              cases step
              exact ⟨Bool.eq_false_iff.mpr running, .output i vals here⟩
          · cases step
  | invalid i =>
      simp only [poolStep] at step
      split at step
      · cases step
      · next running =>
          split at step
          · next here =>
              cases step
              exact ⟨Bool.eq_false_iff.mpr running, .invalid i here⟩
          · cases step

namespace Pool

/-- A sum over the threads when one of them moves. -/
theorem sum_goto {M : Type*} [AddCommMonoid M] (f : Phase → M) (p : Pool jobs) (i : Fin jobs)
    (next : Phase) : ∑ j, f ((p.goto i next).phase j) + f (p.phase i) = ∑ j, f (p.phase j) + f next := by
  have others : ∑ j ∈ Finset.univ.erase i, f ((p.goto i next).phase j) =
      ∑ j ∈ Finset.univ.erase i, f (p.phase j) := by
    refine Finset.sum_congr rfl fun j hj => ?_
    simp only [goto, Function.update_of_ne (Finset.ne_of_mem_erase hj)]
  have own : (p.goto i next).phase i = next := Function.update_self ..
  rw [← Finset.add_sum_erase _ _ (Finset.mem_univ i), others, own,
    ← Finset.add_sum_erase Finset.univ (fun j => f (p.phase j)) (Finset.mem_univ i)]
  ac_rfl

/-- Threads between the test of `end_run` and the end of `save_data`. -/
def busy (p : Pool jobs) : ℕ := ∑ i, (p.phase i).busy

/-- Steps that are left to the threads before each is at the head of its loop again. -/
def rank (p : Pool jobs) : ℕ := ∑ i, (p.phase i).rank

/-- The outputs that the threads hold. -/
def held (p : Pool jobs) : Multiset (List ℚ) := ∑ i, (p.phase i).held

theorem held_goto {i : Fin jobs} {now : Phase} (here : p.phase i = now) (next : Phase) :
    (p.goto i next).held + now.held = p.held + next.held :=
  here ▸ sum_goto Phase.held p i next

theorem busy_goto {i : Fin jobs} {now : Phase} (here : p.phase i = now) (next : Phase) :
    (p.goto i next).busy + now.busy = p.busy + next.busy :=
  here ▸ sum_goto Phase.busy p i next

theorem rank_goto {i : Fin jobs} {now : Phase} (here : p.phase i = now) (next : Phase) :
    (p.goto i next).rank + now.rank = p.rank + next.rank :=
  here ▸ sum_goto Phase.rank p i next

theorem busy_le (p : Pool jobs) : p.busy ≤ jobs := by
  have one : ∀ i, (p.phase i).busy ≤ 1 := fun i => by
    cases p.phase i <;> simp [Phase.busy]
  calc p.busy ≤ ∑ _i : Fin jobs, 1 := Finset.sum_le_sum fun i _ => one i
    _ = jobs := by simp

/-- With somebody at the head of the loop not all threads are busy. -/
theorem busy_lt {i : Fin jobs} (here : p.phase i = .head) : p.busy < jobs := by
  have moved := busy_goto here .running
  have bound := (p.goto i .running).busy_le
  simp only [Phase.busy] at moved
  omega

end Pool

/-- Each event uses up a step, and a sample saved brings a new turn of the loop. -/
theorem Moves.rank (h : Moves cfg p e q) : q.rank + 1 ≤ p.rank + 5 * (saves p e).length := by
  cases h with
  | check i here =>
      have moved := Pool.rank_goto here (if p.endRun then .running else .ended)
      have lower : (if p.endRun then Phase.running else .ended).rank ≤ 4 := by
        split_ifs <;> simp [Phase.rank]
      show (p.goto i _).rank + 1 ≤ _
      simp only [Phase.rank] at moved lower
      omega
  | compare i vals here =>
      have moved := Pool.rank_goto here
        (if (vals.length : ℤ) ≠ p.cols then .adopt vals else .save vals)
      have lower : (if (vals.length : ℤ) ≠ p.cols then Phase.adopt vals else .save vals).rank ≤ 2 := by
        split_ifs <;> simp [Phase.rank]
      show (p.goto i _).rank + 1 ≤ _
      simp only [Phase.rank] at moved lower
      omega
  | adopt i vals here =>
      have exits := Pool.rank_goto here .ended
      have goes := Pool.rank_goto here (.save vals)
      simp only [Phase.rank] at exits goes
      unfold Pool.adopt
      split_ifs
      · show (p.goto i .ended).rank + 1 ≤ _
        omega
      · show (p.goto i (.save vals)).rank + 1 ≤ _
        omega
  | save i vals stats stop here saved =>
      have moved := Pool.rank_goto here .head
      have one : (saves p (.step i)).length = 1 := by simp only [saves, here, List.length_singleton]
      show (p.goto i .head).rank + 1 ≤ _
      simp only [Phase.rank] at moved
      omega
  | output i vals here =>
      have moved := Pool.rank_goto here (.compare vals)
      simp only [Phase.rank] at moved
      omega
  | invalid i here =>
      have moved := Pool.rank_goto here (.compare [])
      show (p.goto i (.compare [])).rank + 1 ≤ _
      simp only [Phase.rank] at moved
      omega

/-- What holds of a pool that has saved these samples. -/
structure PoolInv {jobs : ℕ} (cfg : Setup) (runs : List (List ℚ)) (p : Pool jobs) : Prop where
  stats : p.stats.Holds cfg p.cols.toNat (runs.map drp)
  fresh : p.cols = -1 → runs = [] ∧ p.stats = .reset
  known : p.exited = false → p.cols = -1 ∨ 0 < p.cols
  sizes : ∀ vals ∈ runs, (vals.length : ℤ) = p.cols
  saving : ∀ i vals, p.phase i = .save vals → (vals.length : ℤ) = p.cols
  ended : ∀ i, p.phase i = .ended → p.endRun = false ∨ p.exited = true
  stopped : p.endRun = false → p.exited = true ∨
    (∃ i, p.phase i = .compare [] ∨ p.phase i = .adopt []) ∨
    ∃ k ≤ runs.length, cfg.Stops p.cols.toNat ((runs.map drp).take k)
  going : p.endRun = true → runs.length < cfg.limit
  last : p.endRun = false → runs.length + p.busy < cfg.limit + jobs

theorem Setup.lt_limit (cfg : Setup) : cfg.minRuns < cfg.limit ∧ cfg.numCycles < cfg.limit := by
  have above := Nat.lt_div_mul_add (a := max cfg.minRuns cfg.numCycles) cfg.refresh_pos
  have limit : cfg.limit = max cfg.minRuns cfg.numCycles / cfg.refresh * cfg.refresh +
      cfg.refresh := Nat.succ_mul _ _
  omega

/-- When the limit is reached the rule applies. -/
theorem Setup.stops_limit {cols : ℕ} {runs : List (ℕ → ℚ)} (h : runs.length = cfg.limit) :
    cfg.Stops cols runs := by
  refine ⟨⟨?_, ?_⟩, .inr ?_⟩
  · rw [h]
    exact Nat.mul_mod_left _ _
  · exact h ▸ cfg.lt_limit.1
  · exact h ▸ cfg.lt_limit.2

section invariant

variable {runs : List (List ℚ)}

theorem Pool.phase_goto (p : Pool jobs) (i j : Fin jobs) (next : Phase) :
    (p.goto i next).phase j = if j = i then next else p.phase j :=
  Function.update_apply ..

theorem PoolInv.init (cfg : Setup) (jobs : ℕ) : PoolInv cfg [] (Pool.init jobs) where
  stats := Stats.holds_reset cfg _
  fresh _ := ⟨rfl, rfl⟩
  known _ := .inl rfl
  sizes _ mem := by cases mem
  saving _ _ here := by cases here
  ended _ here := by cases here
  stopped ended := by cases ended
  going _ := Nat.zero_lt_of_lt cfg.lt_limit.1
  last ended := by cases ended

/-- A thread that is known to hold no empty output moves, and the others do not. -/
theorem PoolInv.stopped_goto (h : PoolInv cfg runs p) (running : p.exited = false)
    {i : Fin jobs} {next : Phase} (cleared : p.endRun = false)
    (other : p.phase i ≠ .compare [] ∧ p.phase i ≠ .adopt [] ∨
      next = .compare [] ∨ next = .adopt []) :
    (∃ j, (p.goto i next).phase j = .compare [] ∨ (p.goto i next).phase j = .adopt []) ∨
      ∃ k ≤ runs.length, cfg.Stops p.cols.toNat ((runs.map drp).take k) := by
  obtain exited | ⟨j, empty⟩ | rule := h.stopped cleared
  · rw [running] at exited
    cases exited
  · left
    by_cases own : j = i
    · subst own
      obtain ⟨compare, adopt⟩ | next := other
      · exact absurd empty (by simp [compare, adopt])
      · exact ⟨j, by rwa [Pool.phase_goto, if_pos rfl]⟩
    · exact ⟨j, by rwa [Pool.phase_goto, if_neg own]⟩
  · exact .inr rule

theorem PoolInv.check (h : PoolInv cfg runs p) (running : p.exited = false) {i : Fin jobs}
    (here : p.phase i = .head) : PoolInv cfg runs (p.check i) where
  stats := h.stats
  fresh := h.fresh
  known := h.known
  sizes := h.sizes
  saving j vals at' := by
    unfold Pool.check at at'
    rw [Pool.phase_goto] at at'
    split_ifs at at'
    exact h.saving j vals at'
  ended j at' := by
    unfold Pool.check at at'
    rw [Pool.phase_goto] at at'
    split_ifs at at' with own going
    · exact .inl (Bool.eq_false_iff.mpr going)
    · exact h.ended j at'
  stopped cleared := .inr (h.stopped_goto running cleared (.inl (by simp [here])))
  going := h.going
  last cleared := by
    have moved := Pool.busy_goto here (if p.endRun then .running else .ended)
    have none : p.endRun = false := cleared
    have before := h.last none
    rw [none, if_neg Bool.false_ne_true] at moved
    simp only [Phase.busy, add_zero] at moved
    show runs.length + (p.goto i _).busy < _
    rwa [none, if_neg Bool.false_ne_true, moved]

theorem PoolInv.compare (h : PoolInv cfg runs p) (running : p.exited = false) {i : Fin jobs}
    {vals : List ℚ} (here : p.phase i = .compare vals) : PoolInv cfg runs (p.compare i vals) where
  stats := h.stats
  fresh := h.fresh
  known := h.known
  sizes := h.sizes
  saving j vals' at' := by
    unfold Pool.compare at at'
    rw [Pool.phase_goto] at at'
    split_ifs at at' with own same
    · cases at'
      exact not_not.mp same
    · exact h.saving j vals' at'
  ended j at' := by
    unfold Pool.compare at at'
    rw [Pool.phase_goto] at at'
    split_ifs at at' with own
    exact h.ended j at'
  stopped cleared := by
    refine .inr (h.stopped_goto running cleared ?_)
    by_cases empty : vals = []
    · subst empty
      right
      have some : p.cols ≠ 0 := by
        have known := h.known running
        omega
      rw [List.length_nil, Nat.cast_zero, if_pos some.symm]
      exact .inr rfl
    · exact .inl (by simp [here, empty])
  going := h.going
  last cleared := by
    have moved := Pool.busy_goto here
      (if (vals.length : ℤ) ≠ p.cols then .adopt vals else .save vals)
    have one : (if (vals.length : ℤ) ≠ p.cols then Phase.adopt vals else .save vals).busy = 1 := by
      split_ifs <;> rfl
    have before := h.last cleared
    rw [one] at moved
    simp only [Phase.busy] at moved
    show runs.length + (p.goto i _).busy < _
    omega

/-- What is settled once stays so. -/
theorem PoolInv.settled (h : PoolInv cfg runs p) (vals : List ℚ) :
    p.settled vals ≠ -1 ∧ (p.cols ≠ -1 → p.settled vals = p.cols) ∧
      p.stats.Holds cfg (p.settled vals).toNat (runs.map drp) ∧
      ∀ vals' ∈ runs, (vals'.length : ℤ) = p.settled vals := by
  unfold Pool.settled
  split_ifs with new
  · obtain ⟨rfl, reset⟩ := h.fresh new
    rw [reset]
    exact ⟨by omega, fun old => absurd new old, Stats.holds_reset cfg _, by simp⟩
  · exact ⟨new, fun _ => rfl, h.stats, h.sizes⟩

theorem PoolInv.adopt (h : PoolInv cfg runs p) (running : p.exited = false) {i : Fin jobs}
    {vals : List ℚ} (here : p.phase i = .adopt vals) : PoolInv cfg runs (p.adopt i vals) := by
  obtain ⟨some, old, stats, sizes⟩ := h.settled vals
  have others : ∀ j vals', p.phase j = .save vals' → (vals'.length : ℤ) = p.settled vals := by
    intro j vals' at'
    have length := h.saving j vals' at'
    rw [old (by omega)]
    exact length
  unfold Pool.adopt
  split_ifs with bad
  · refine ⟨stats, fun new => absurd new some, fun exited => ?_, sizes, ?_, fun _ _ => .inr rfl,
      fun _ => .inl rfl, h.going, fun cleared => ?_⟩
    · cases exited
    · intro j vals' at'
      rw [Pool.phase_goto] at at'
      split_ifs at at'
      exact others j vals' at'
    · have moved := Pool.busy_goto here .ended
      have before := h.last cleared
      simp only [Phase.busy] at moved
      show runs.length + (p.goto i .ended).busy < _
      omega
  · obtain ⟨filled, same⟩ := not_or.mp bad
    have length : p.settled vals = vals.length := not_not.mp same
    refine ⟨stats, fun new => absurd new some, fun _ => .inr ?_, sizes, ?_, ?_, ?_, h.going,
      fun cleared => ?_⟩
    · show 0 < p.settled vals
      omega
    · intro j vals' at'
      rw [Pool.phase_goto] at at'
      split_ifs at at'
      · cases at'
        exact length.symm
      · exact others j vals' at'
    · intro j at'
      rw [Pool.phase_goto] at at'
      split_ifs at at'
      exact h.ended j at'
    · intro cleared
      right
      have empty : vals ≠ [] := by
        rintro rfl
        exact filled length
      have other : p.phase i ≠ .compare [] ∧ p.phase i ≠ .adopt [] := by simp [here, empty]
      obtain thread | ⟨k, bound, rule⟩ := h.stopped_goto running cleared
        (.inl other : _ ∨ Phase.save vals = .compare [] ∨ Phase.save vals = .adopt [])
      · exact .inl thread
      · right
        refine ⟨k, bound, ?_⟩
        by_cases new : p.cols = -1
        · obtain ⟨rfl, -⟩ := h.fresh new
          have pos := Setup.pos_of_checks rule.1
          simp at pos
        · show cfg.Stops (p.settled vals).toNat _
          rwa [old new]
    · have moved := Pool.busy_goto here (.save vals)
      have before := h.last cleared
      simp only [Phase.busy] at moved
      show runs.length + (p.goto i (.save vals)).busy < _
      omega

theorem PoolInv.save (h : PoolInv cfg runs p) (running : p.exited = false) {i : Fin jobs}
    {vals : List ℚ} (here : p.phase i = .save vals) {stats : Stats} {stop : Bool}
    (saved : p.stats.saveData cfg p.cols.toNat (drp vals) = some (stats, stop)) :
    PoolInv cfg (runs ++ [vals])
      ({ p with stats := stats, endRun := p.endRun && !stop }.goto i .head) := by
  obtain ⟨_, _, result, holds, rule⟩ := h.stats.saveData (drp vals)
  obtain ⟨rfl, rfl⟩ := Prod.mk.inj (Option.some.inj (saved.symm.trans result))
  have length := h.saving i vals here
  have all : (runs ++ [vals]).map drp = runs.map drp ++ [drp vals] := List.map_append
  have moved := Pool.busy_goto here .head
  simp only [Phase.busy, add_zero] at moved
  rw [← all] at holds rule
  refine ⟨holds, fun new => ?_, h.known, ?_, ?_, ?_, ?_, ?_, ?_⟩
  · have none : p.cols = -1 := new
    omega
  · exact List.forall_mem_append.mpr ⟨h.sizes, List.forall_mem_singleton.mpr length⟩
  · intro j vals' at'
    rw [Pool.phase_goto] at at'
    split_ifs at at'
    exact h.saving j vals' at'
  · intro j at'
    rw [Pool.phase_goto] at at'
    split_ifs at at'
    obtain cleared | exited := h.ended j at'
    · left
      show (p.endRun && !stop) = false
      rw [cleared, Bool.false_and]
    · exact .inr exited
  · intro cleared
    right
    obtain before | now := Bool.and_eq_false_iff.mp cleared
    · have other : p.phase i ≠ .compare [] ∧ p.phase i ≠ .adopt [] := by simp [here]
      obtain thread | ⟨k, bound, old⟩ := h.stopped_goto running before
        (.inl other : _ ∨ Phase.head = .compare [] ∨ Phase.head = .adopt [])
      · exact .inl thread
      · right
        refine ⟨k, by simp; omega, ?_⟩
        rwa [all, List.take_append_of_le_length (by simpa using bound)]
    · right
      refine ⟨(runs ++ [vals]).length, le_rfl, ?_⟩
      rw [← List.length_map drp, List.take_length]
      exact rule.mp (by simpa using now)
  · intro going
    obtain ⟨before, goes⟩ := Bool.and_eq_true_iff.mp going
    have below := h.going before
    by_contra full
    have reached : ((runs ++ [vals]).map drp).length = cfg.limit := by
      rw [List.length_map, List.length_append, List.length_singleton] at *
      omega
    rw [rule.mpr (Setup.stops_limit reached)] at goes
    cases goes
  · intro cleared
    show (runs ++ [vals]).length + (p.goto i .head).busy < _
    rw [List.length_append, List.length_singleton]
    cases before : p.endRun with
    | false =>
        have last := h.last before
        omega
    | true =>
        have below := h.going before
        have free := Pool.busy_lt (p := p.goto i .head) (i := i) (Function.update_self ..)
        omega

theorem PoolInv.output (h : PoolInv cfg runs p) (running : p.exited = false) {i : Fin jobs}
    (here : p.phase i = .running) (vals : List ℚ) :
    PoolInv cfg runs (p.goto i (.compare vals)) where
  stats := h.stats
  fresh := h.fresh
  known := h.known
  sizes := h.sizes
  saving j vals' at' := by
    rw [Pool.phase_goto] at at'
    split_ifs at at'
    exact h.saving j vals' at'
  ended j at' := by
    rw [Pool.phase_goto] at at'
    split_ifs at at'
    exact h.ended j at'
  stopped cleared := .inr (h.stopped_goto running cleared (.inl (by simp [here])))
  going := h.going
  last cleared := by
    have moved := Pool.busy_goto here (.compare vals)
    have before := h.last cleared
    simp only [Phase.busy] at moved
    omega

theorem PoolInv.fail (h : PoolInv cfg runs p) {i : Fin jobs} (here : p.phase i = .running) :
    PoolInv cfg runs (p.fail i) where
  stats := h.stats
  fresh := h.fresh
  known := h.known
  sizes := h.sizes
  saving j vals at' := by
    unfold Pool.fail at at'
    rw [Pool.phase_goto] at at'
    split_ifs at at'
    exact h.saving j vals at'
  ended _ _ := .inl rfl
  stopped _ := .inr (.inl ⟨i, .inl (Function.update_self ..)⟩)
  going kept := by cases kept
  last _ := by
    have moved := Pool.busy_goto here (.compare [])
    have bound := p.busy_le
    simp only [Phase.busy] at moved
    show runs.length + (p.goto i (.compare [])).busy < _
    cases before : p.endRun with
    | false =>
        have last := h.last before
        omega
    | true =>
        have below := h.going before
        omega

theorem PoolInv.moves (h : PoolInv cfg runs p) (running : p.exited = false)
    (moves : Moves cfg p e q) : PoolInv cfg (runs ++ saves p e) q := by
  cases moves with
  | check i here =>
      simp only [saves, here, List.append_nil]
      exact h.check running here
  | compare i vals here =>
      simp only [saves, here, List.append_nil]
      exact h.compare running here
  | adopt i vals here =>
      simp only [saves, here, List.append_nil]
      exact h.adopt running here
  | save i vals stats stop here saved =>
      simp only [saves, here]
      exact h.save running here saved
  | output i vals here =>
      simp only [saves, List.append_nil]
      exact h.output running here vals
  | invalid i here =>
      simp only [saves, List.append_nil]
      exact h.fail here

/-- The invariant holds of the pool after any events, with the samples saved by them. -/
theorem poolInv_of_run {es : List (PoolEvent jobs)} (cfg : Setup)
    (reach : run (poolStep cfg) (Pool.init jobs) es = some p) : PoolInv cfg (saved cfg es) p := by
  have any : Along (poolStep cfg) (fun _ _ => True) (Pool.init jobs) es :=
    along_of_forall fun _ _ _ => trivial
  refine run_outputs_along [] (I := PoolInv cfg) (PoolInv.init cfg jobs) any ?_ reach
  rintro past a e b inv - step
  obtain ⟨running, moves⟩ := moves_of_poolStep step
  exact inv.moves running moves

end invariant

section outputs

theorem Moves.held (h : Moves cfg p e q) (running : q.exited = false) :
    p.held + (e.produced : Multiset (List ℚ)) = (saves p e : Multiset (List ℚ)) + q.held := by
  cases h with
  | check i here =>
      have moved := Pool.held_goto here (if p.endRun then .running else .ended)
      have nothing : (if p.endRun then Phase.running else .ended).held = 0 := by
        split_ifs <;> rfl
      have none : saves p (.step i) = [] := by simp only [saves, here]
      rw [nothing] at moved
      rw [none]
      exact (add_zero _).trans ((add_zero _).symm.trans (moved.symm.trans (add_comm _ _)))
  | compare i vals here =>
      have moved := Pool.held_goto here
        (if (vals.length : ℤ) ≠ p.cols then .adopt vals else .save vals)
      have same : (if (vals.length : ℤ) ≠ p.cols then Phase.adopt vals else .save vals).held =
          {vals} := by
        split_ifs <;> rfl
      have none : saves p (.step i) = [] := by simp only [saves, here]
      rw [same] at moved
      rw [none]
      exact (add_zero _).trans ((add_right_cancel moved).symm.trans (zero_add _).symm)
  | adopt i vals here =>
      have moved := Pool.held_goto here (.save vals)
      have none : saves p (.step i) = [] := by simp only [saves, here]
      rw [none]
      unfold Pool.adopt at running ⊢
      split_ifs at running ⊢
      · cases running
      · exact (add_zero _).trans ((add_right_cancel moved).symm.trans (zero_add _).symm)
  | save i vals stats stop here saved =>
      have moved := Pool.held_goto here .head
      have one : saves p (.step i) = [vals] := by simp only [saves, here]
      rw [one]
      exact moved.symm.trans (add_comm _ _)
  | output i vals here =>
      have moved := Pool.held_goto here (.compare vals)
      exact moved.symm.trans (add_comm _ _)
  | invalid i here =>
      have moved := Pool.held_goto here (.compare [])
      exact moved.symm.trans (add_comm _ _)

theorem run_held {es : List (PoolEvent jobs)} (reach : run (poolStep cfg) p es = some q)
    (running : q.exited = false) :
    p.held + (es.flatMap PoolEvent.produced : Multiset (List ℚ)) =
      (outputs (poolStep cfg) saves p es : Multiset (List ℚ)) + q.held := by
  induction es generalizing p with
  | nil =>
      obtain rfl := Option.some.inj reach
      simp [outputs]
  | cons e es ih =>
      obtain ⟨m, step, rest⟩ := run_cons_eq_some.mp reach
      have still : m.exited = false := by
        cases es with
        | nil =>
            obtain rfl := Option.some.inj rest
            exact running
        | cons e' es =>
            obtain ⟨_, next, -⟩ := run_cons_eq_some.mp rest
            exact (moves_of_poolStep next).1
      have here := (moves_of_poolStep step).2.held still
      have later := ih rest
      rw [outputs_cons_of_step step, List.flatMap_cons, ← Multiset.coe_add, ← Multiset.coe_add,
        ← add_assoc, here, add_assoc, later, add_assoc]

end outputs

/-- However the steps of the threads are interleaved, the threads end: the number of samples
and of steps is bounded, and as long as nobody has called `exit` every thread that has not
ended can take its next step, or has a simulation to wait for. -/
theorem pool_ends (cfg : Setup) (es : List (PoolEvent jobs)) (p : Pool jobs)
    (reach : run (poolStep cfg) (Pool.init jobs) es = some p) :
    p.stats.numSamples < cfg.limit + jobs ∧ es.length < 5 * (cfg.limit + 2 * jobs) ∧
      (p.exited = false → ∀ i, p.phase i ≠ .ended → (poolStep cfg p (.step i)).isSome = true ∨
        p.phase i = .running ∧ ∀ vals, (poolStep cfg p (.output i vals)).isSome = true) := by
  have inv := poolInv_of_run cfg reach
  have number : p.stats.numSamples = (saved cfg es).length := by
    rw [inv.stats.number, List.length_map]
  have bound : (saved cfg es).length < cfg.limit + jobs := by
    cases end_ : p.endRun with
    | true => exact Nat.lt_add_right jobs (inv.going end_)
    | false => exact Nat.lt_of_le_of_lt (Nat.le_add_right _ _) (inv.last end_)
  refine ⟨number ▸ bound, ?_, fun running i active => ?_⟩
  · have paid : p.rank + tally (poolStep cfg) (fun _ _ => 1) (Pool.init jobs) es ≤
        (Pool.init jobs).rank +
          tally (poolStep cfg) (fun a e => 5 * (saves a e).length) (Pool.init jobs) es :=
      run_potential (fun a e b step => (moves_of_poolStep step).2.rank) reach
    have steps : es.length ≤ tally (poolStep cfg) (fun _ _ => 1) (Pool.init jobs) es :=
      length_le_tally (fun _ _ => Nat.le_refl 1) reach
    have start : (Pool.init jobs).rank = 5 * jobs := by
      simp [Pool.rank, Pool.init, Phase.rank, Nat.mul_comm]
    rw [tally_mul, tally_length, start] at paid
    change _ ≤ 5 * jobs + 5 * (saved cfg es).length at paid
    omega
  · cases here : p.phase i with
    | head => exact .inl (by simp [poolStep, running, here])
    | running => exact .inr ⟨rfl, fun vals => by simp [poolStep, running, here]⟩
    | compare vals => exact .inl (by simp [poolStep, running, here])
    | adopt vals => exact .inl (by simp [poolStep, running, here])
    | save vals =>
        obtain ⟨stats, stop, result, -, -⟩ := inv.stats.saveData (drp vals)
        exact .inl (by simp [poolStep, running, here, Pool.save, result])
    | ended => exact absurd here active

theorem one_run : 1 ≤ 1 := Nat.le_refl 1

theorem nine_tenths : (0 : ℚ) ≤ 9 / 10 ∧ (9 : ℚ) / 10 ≤ 1 := by norm_num

/-- The mean of one column, to be checked after every run from the second one on. -/
def oneMean : Setup where
  type _ := 0
  numCycles := 1
  minRuns := 1
  refresh := 1
  maxErr := 1 / 20
  perc := 9 / 10
  qPerc := 2576 / 1000
  sqrt x := Nat.sqrt x.num.toNat / Nat.sqrt x.den
  exp _ := some 1
  minRuns_pos := one_run
  refresh_pos := one_run
  perc_nonneg := nine_tenths.1
  perc_le_one := nine_tenths.2

/-- Both threads settle the number of columns, and the sample that the second one is working
on when the first one clears `end_run` is saved, too. -/
def twoThreads : List (PoolEvent 2) :=
  [.step 0, .step 1, .output 1 [5], .output 0 [5], .step 1, .step 0, .step 0, .step 1, .step 1,
    .step 1, .step 0, .step 0, .output 1 [5], .step 1, .step 1, .step 1]

theorem pool_ends_twoThreads : ∃ p, run (poolStep oneMean) (Pool.init 2) twoThreads = some p ∧
    p.stats.numSamples < oneMean.limit + 2 := by
  have returned : (run (poolStep oneMean) (Pool.init 2) twoThreads).isSome = true := by
    decide +kernel
  obtain ⟨p, reach⟩ := Option.isSome_iff_exists.mp returned
  exact ⟨p, reach, (pool_ends oneMean twoThreads p reach).1⟩

/-- What the statistics are at any time, and why the threads have ended. -/
structure Reports {jobs : ℕ} (cfg : Setup) (es : List (PoolEvent jobs)) (p : Pool jobs) :
    Prop where
  sizes : ∀ vals ∈ saved cfg es, (vals.length : ℤ) = p.cols
  stats : p.stats.Holds cfg p.cols.toNat ((saved cfg es).map drp)
  once : p.exited = false → (es.flatMap PoolEvent.produced : Multiset (List ℚ)) =
    (saved cfg es : Multiset (List ℚ)) + p.held
  stopped : p.exited = false → 0 < jobs → (∀ i, p.phase i = .ended) →
    ∃ k ≤ (saved cfg es).length, cfg.Stops p.cols.toNat (((saved cfg es).map drp).take k)

/-- However the steps of the threads are interleaved, each output of a simulation is saved
once or still held by its thread, the statistics are those of the samples saved, and once all
threads have ended the samples up to some check have met the rule for it. -/
theorem pool_reports (cfg : Setup) (es : List (PoolEvent jobs)) (p : Pool jobs)
    (reach : run (poolStep cfg) (Pool.init jobs) es = some p) : Reports cfg es p := by
  have inv := poolInv_of_run cfg reach
  refine ⟨inv.sizes, inv.stats, fun running => ?_, fun running pos all => ?_⟩
  · have held := run_held reach running
    have none : (Pool.init jobs).held = 0 := by simp [Pool.held, Pool.init, Phase.held]
    rwa [none, zero_add] at held
  · have cleared : p.endRun = false := by
      obtain cleared | exited := inv.ended ⟨0, pos⟩ (all _)
      · exact cleared
      · rw [running] at exited
        cases exited
    obtain exited | ⟨i, empty⟩ | rule := inv.stopped cleared
    · rw [running] at exited
      cases exited
    · simp [all] at empty
    · exact rule

theorem pool_reports_twoThreads : ∃ p, run (poolStep oneMean) (Pool.init 2) twoThreads = some p ∧
    Reports oneMean twoThreads p := by
  have returned : (run (poolStep oneMean) (Pool.init 2) twoThreads).isSome = true := by
    decide +kernel
  obtain ⟨p, reach⟩ := Option.isSome_iff_exists.mp returned
  exact ⟨p, reach, pool_reports oneMean twoThreads p reach⟩

/-- What a column shows for a percentile: the middle of two samples around the one that has
the index of the percentile, and as the error half their distance, relative to the middle. -/
structure Brackets (cfg : Setup) (xs : List ℚ) (col : Column) (lo hi : ℚ) : Prop where
  mem : lo ∈ xs ∧ hi ∈ xs
  around : lo ≤ orderStatistic xs ⌊xs.length * cfg.perc⌋ ∧
    orderStatistic xs ⌊xs.length * cfg.perc⌋ ≤ hi
  middle : col.estimate = (lo + hi) / 2
  error : ∀ err, col.estError = some err → err * |col.estimate| = (hi - lo) / 2

end Mftdma.Utils
