import Mathlib.Data.Prod.Lex
import Mathlib.Order.Lattice.Nat
import Mftdma.Allocator.Assign

/-!
# When `assign_timeslot` returns

In CONT_MODE every pass uses up a slot or part of `left_to_check`. In SLOT_MODE
a pass that finds no frame for a terminal with a positive deficit only moves
`cur_term` on: `left_to_check` goes down at terminals without a positive
deficit and nowhere else. The loop therefore runs for ever as soon as every
terminal has a positive deficit and none of them fits.

`Stuck` describes that state. It is closed under the loop body, and a loop that
never meets it descends in the slots, then the counter, then the number of
turns to the next terminal that makes progress.
-/

namespace Mftdma.Allocator

open Cyclic Execution

variable {n nf : ℕ} {cfg : Config n nf} {s t : Assign n nf}

/-- Every terminal asks for more, none can be served, and slots are left. -/
def Assign.Stuck (cfg : Config n nf) (s : Assign n nf) : Prop :=
  cfg.mode = slotMode ∧ s.freeslots ≠ 0 ∧ s.leftToCheck ≠ 0 ∧ s.frame = .null ∧
    ∀ u, 0 < s.deficit u ∧ ¬ s.Feasible cfg u

instance (cfg : Config n nf) (s : Assign n nf) : Decidable (s.Stuck cfg) :=
  inferInstanceAs (Decidable (_ ∧ _ ∧ _ ∧ _ ∧ ∀ u, 0 < s.deficit u ∧ ¬ s.Feasible cfg u))

theorem slotMode_ne_contMode : slotMode ≠ contMode := by decide

theorem Assign.Stuck.body (h : s.Stuck cfg) : (s.body cfg).Stuck cfg := by
  obtain ⟨mode, slots, left, null, blocked⟩ := h
  have picked := Assign.pick_of_pos (blocked s.curTerm).1
  have notCont : cfg.mode ≠ contMode := mode ▸ slotMode_ne_contMode
  have pass := s.body_pass cfg
  generalize s.body cfg = t at pass ⊢
  cases pass with
  | exhausted out => rw [picked] at out; exact absurd out left
  | granted r i j _ mem eligible cell free =>
      exact absurd ⟨(blocked _).1, r, mem, eligible, _, cell, free⟩ (blocked _).2
  | stale stale => exact absurd null stale.2.1
  | refused offset _ _ =>
      refine ⟨mode, slots, ?_, rfl, blocked⟩
      simp only [Assign.refuse, if_neg notCont, picked]
      exact left

/-- A stuck loop hangs. -/
theorem Assign.Stuck.not_terminates (h : s.Stuck cfg) : ¬ (assignTimeslot cfg).Terminates s :=
  Loop.not_terminates_of_closed h
    (fun _ ha => guard_iff.mpr ⟨ha.2.1, ha.2.2.1⟩) (fun _ ha => ha.body)

/-- Turns to the next terminal that is served or lowers `left_to_check`. -/
noncomputable def Assign.wait (cfg : Config n nf) (s : Assign n nf) : ℕ :=
  sInf {k | 0 < s.deficit (advance s.curTerm k) → s.Feasible cfg (advance s.curTerm k)}

/-- What descends: the free slots, the counter, and the turns to wait, which are
not known before `frame` is NULL. -/
noncomputable def Assign.rank (cfg : Config n nf) (s : Assign n nf) : ℕ ×ₗ ℕ ×ₗ ℕ :=
  toLex (s.freeslots, toLex (s.leftToCheck, if s.frame = .null then s.wait cfg else n))

/-- A state that is not stuck, with `frame` NULL, waits less than a round. -/
theorem Assign.exists_progress (mode : cfg.mode = slotMode) (slots : s.freeslots ≠ 0)
    (left : s.leftToCheck ≠ 0) (null : s.frame = .null) (free : ¬ s.Stuck cfg) :
    ∃ k < n, 0 < s.deficit (advance s.curTerm k) → s.Feasible cfg (advance s.curTerm k) := by
  by_contra none
  push Not at none
  refine free ⟨mode, slots, left, null, fun u => ?_⟩
  obtain ⟨k, hk, rfl⟩ := exists_advance_eq s.curTerm u
  exact none k hk

/-- A refused turn of SLOT_MODE that skipped no terminal brings the next
terminal that makes progress one turn nearer. -/
private theorem wait_advance (mode : cfg.mode = slotMode) (slots : s.freeslots ≠ 0)
    (left : s.leftToCheck ≠ 0) (positive : 0 < s.deficit s.curTerm)
    (full : ¬ s.Feasible cfg s.curTerm) (offset : ℚ)
    (free : ¬ s.Stuck cfg)
    (next : ¬ (s.refuse cfg s.leftToCheck s.curTerm ⟨.null, offset, s.store⟩).Stuck cfg) :
    (s.refuse cfg s.leftToCheck s.curTerm ⟨.null, offset, s.store⟩).wait cfg <
      if s.frame = .null then s.wait cfg else n := by
  have notCont : cfg.mode ≠ contMode := mode ▸ slotMode_ne_contMode
  have turn : (s.refuse cfg s.leftToCheck s.curTerm ⟨.null, offset, s.store⟩).curTerm =
      advance s.curTerm 1 := by simp [Assign.refuse, mode]
  split
  · next null =>
      obtain ⟨k, -, hk⟩ := Assign.exists_progress mode slots left null free
      have reached : 0 < s.deficit (advance s.curTerm (s.wait cfg)) →
          s.Feasible cfg (advance s.curTerm (s.wait cfg)) :=
        Nat.sInf_mem (s := {k | 0 < s.deficit (advance s.curTerm k) →
          s.Feasible cfg (advance s.curTerm k)}) ⟨k, hk⟩
      cases hw : s.wait cfg with
      | zero =>
          rw [hw, advance_zero] at reached
          exact absurd (reached positive) full
      | succ m =>
          rw [hw] at reached
          refine Nat.lt_succ_of_le (Nat.sInf_le ?_)
          rw [Set.mem_ofPred_eq, turn, advance_advance, Nat.add_comm 1 m]
          exact reached
  · obtain ⟨k, hk, progress⟩ := Assign.exists_progress mode
      (s := s.refuse cfg s.leftToCheck s.curTerm ⟨.null, offset, s.store⟩) slots
      (by simpa [Assign.refuse, notCont] using left) rfl next
    exact Nat.lt_of_le_of_lt (Nat.sInf_le progress) hk

/-- Each pass that starts and ends outside `Stuck` lowers the rank. -/
theorem Assign.rank_body_lt (knownMode : cfg.KnownMode) (knownLayout : cfg.KnownLayout)
    (guard : (assignTimeslot cfg).guard s = true) (free : ¬ s.Stuck cfg)
    (next : ¬ (s.body cfg).Stuck cfg) : (s.body cfg).rank cfg < s.rank cfg := by
  obtain ⟨slots, left⟩ := guard_iff.mp guard
  have pass := s.body_pass cfg
  generalize s.body cfg = t at pass next ⊢
  simp only [Assign.rank, Prod.Lex.toLex_lt_toLex]
  cases pass with
  | exhausted out => exact .inr ⟨rfl, .inl (Nat.pos_of_ne_zero left)⟩
  | granted r i j => exact .inl (Nat.sub_one_lt slots)
  | stale => exact .inl (Nat.sub_one_lt slots)
  | refused offset some full =>
      refine .inr ⟨rfl, ?_⟩
      obtain ⟨m, bound, picked, -, positive⟩ := s.pick_spec
      rw [picked] at some
      simp only at some
      obtain mode | mode := knownMode
      · have notCont : cfg.mode ≠ contMode := mode ▸ slotMode_ne_contMode
        obtain rfl | moved := Nat.eq_zero_or_pos m
        · rw [Nat.sub_zero, advance_zero] at picked
          rw [picked] at positive full next ⊢
          have full := full knownLayout
          refine .inr ⟨by simp [Assign.refuse, notCont], ?_⟩
          exact wait_advance mode slots left (positive left) full offset free next
        · refine .inl ?_
          simp only [Assign.refuse, if_neg notCont, picked]
          omega
      · refine .inl ?_
        simp only [Assign.refuse, if_pos mode, picked]
        omega

theorem terminates_of_not_stuck (knownMode : cfg.KnownMode) (knownLayout : cfg.KnownLayout)
    (free : ∀ t, (assignTimeslot cfg).Visits s t → ¬ t.Stuck cfg) :
    (assignTimeslot cfg).Terminates s := by
  apply Loop.terminates_of_wf wellFounded_lt (Assign.rank cfg)
  intro t visited guard
  exact t.rank_body_lt knownMode knownLayout guard (free t visited) (free _ (.pass visited guard))

/-- No pass gives a terminal without a positive deficit more to ask for. -/
theorem Assign.deficit_body_nonpos {u : Fin n}
    (h : s.deficit u ≤ 0) : (s.body cfg).deficit u ≤ 0 := by
  have granted : ∀ w, s.pick.1 ≠ 0 → (s.grant cfg s.pick.1 s.pick.2 w).deficit u ≤ 0 := by
    intro w some
    obtain ⟨m, bound, picked, -, positive⟩ := s.pick_spec
    have other : u ≠ s.pick.2 := by
      rintro rfl
      exact absurd (positive some) (not_lt.mpr h)
    simpa [Assign.grant, other] using h
  have pass := s.body_pass cfg
  generalize s.body cfg = t at pass ⊢
  cases pass with
  | exhausted out => exact h
  | granted r i j some => exact granted _ some
  | stale stale => exact granted _ stale.1
  | refused offset some full => exact h

/-- CONT_MODE always returns, and so does SLOT_MODE when one terminal has no
positive deficit at entry. -/
theorem assignTimeslot_terminates_of_satisfied (knownMode : cfg.KnownMode)
    (knownLayout : cfg.KnownLayout) (h : cfg.mode = contMode ∨ ∃ u, s.deficit u ≤ 0) :
    (assignTimeslot cfg).Terminates s := by
  apply terminates_of_not_stuck knownMode knownLayout
  intro t visited stuck
  obtain mode | ⟨u, hu⟩ := h
  · exact slotMode_ne_contMode (stuck.1.symm.trans mode)
  · have kept : t.deficit u ≤ 0 := visited.invariant hu fun a _ ha _ =>
      a.deficit_body_nonpos ha
    exact absurd (stuck.2.2.2.2 u).1 (not_lt.mpr kept)

/-- `assign_timeslot` returns exactly when no pass of its loop starts stuck. -/
theorem assignTimeslot_terminates_iff (cfg : Config n nf) (knownMode : cfg.KnownMode)
    (knownLayout : cfg.KnownLayout) (s : Assign n nf) :
    (assignTimeslot cfg).Terminates s ↔
      ∀ t, (assignTimeslot cfg).Visits s t → ¬ t.Stuck cfg := by
  constructor
  · intro returns t visited stuck
    exact stuck.not_terminates (visited.terminates_iff.mpr returns)
  · exact terminates_of_not_stuck knownMode knownLayout

/-- One terminal and one frame of two carriers with a single timeslot: the mask
of the terminal is full after one burst, and the other carrier stays free. -/
def twoCarriers : Config 1 1 := .oneFrame .twoByOne (fun _ => [.any]) slotMode firstFit

/-- The first stage of a superframe in which the terminal asks for 1000 bytes. -/
def backlogged : Assign 1 1 where
  store := { frame := fun _ _ _ => nothingToSend, mask := fun _ _ => 0 }
  deficit _ := 1000
  a _ := 0
  freeslots := 2
  leftToCheck := 1
  curTerm := ⟨0, Nat.one_pos⟩
  cnstRate _ := 0
  reqvRate _ := 1000
  reqvVolume _ := 0
  utilization := 0
  load := 1000
  bdes := []
  frame := .null
  offset := 0

/-- One burst is all that the terminal asks for. -/
def modest : Assign 1 1 := { backlogged with deficit := fun _ => 1, load := 1 }

/-- The loop returns for the one that asks for a burst: after it, the deficit is not positive. For
the other one it does on the same condition. -/
theorem assignTimeslot_terminates_iff_modest :
    (assignTimeslot twoCarriers).Terminates modest ∧
      ((assignTimeslot twoCarriers).Terminates backlogged ↔
        ∀ t, (assignTimeslot twoCarriers).Visits backlogged t → ¬ t.Stuck twoCarriers) := by
  have iff := assignTimeslot_terminates_iff twoCarriers (.inl rfl) (.inl rfl)
  refine ⟨(iff modest).mpr fun t visited stuck => ?_, iff backlogged⟩
  obtain rfl | done : t = modest ∨ t.deficit 0 ≤ 0 := by
    apply visited.invariant (I := fun a => a = modest ∨ a.deficit 0 ≤ 0) (.inl rfl)
    rintro a - (rfl | done) -
    · exact .inr (by decide +kernel)
    · exact .inr (a.deficit_body_nonpos done)
  · exact absurd stuck (by decide +kernel)
  · exact absurd (stuck.2.2.2.2 0).1 (not_lt.mpr done)

/-- The first pass grants the first carrier, the second one finds the mask full. -/
theorem backlogged_hangs : ¬ (assignTimeslot twoCarriers).Terminates backlogged := by
  have first : (assignTimeslot twoCarriers).guard backlogged = true := rfl
  have second : (assignTimeslot twoCarriers).guard (backlogged.body twoCarriers) = true := by
    decide +kernel
  have stuck : ((backlogged.body twoCarriers).body twoCarriers).Stuck twoCarriers := by
    decide +kernel
  intro h
  exact stuck.not_terminates
    ((Loop.terminates_body_iff second).mpr ((Loop.terminates_body_iff first).mpr h))

end Mftdma.Allocator
