import Mftdma.Allocator.Termination

/-!
# Work conservation of a stage

When `assign_timeslot` returns with slots left, no terminal could still be
served. The invariant `Tried` names the terminals met since the last change of
the superframe: they are consecutive, none of them is feasible, and together
with `left_to_check` they account for all terminals. In CONT_MODE a grant does
not restart the count, so there the account is exact and the terminal that is
served is a new one; in SLOT_MODE a grant restarts it.
-/

namespace Mftdma.Allocator

open Cyclic Execution

variable {n nf : ℕ} {cfg : Config n nf} {s t : Assign n nf}

/-- `m` terminals from `c` on were met and are not feasible in this state. -/
structure Assign.Tried (cfg : Config n nf) (s : Assign n nf) (c : Fin n) (m : ℕ) : Prop where
  turn : s.curTerm = advance c m
  count : n ≤ m + s.leftToCheck
  exact : cfg.mode = contMode → m + s.leftToCheck = n
  infeasible : ∀ j < m, ¬ s.Feasible cfg (advance c j)

/-- A grant to `u` makes no other terminal feasible. -/
theorem Assign.Feasible.of_grant {left : ℕ} {u v : Fin n} {w : Search n nf}
    (fewer : ∀ f, w.store.Usable cfg f v → s.store.Usable cfg f v) (other : v ≠ u)
    (h : (s.grant cfg left u w).Feasible cfg v) : s.Feasible cfg v := by
  obtain ⟨positive, r, mem, eligible, usable⟩ := h
  simp only [Assign.grant, Function.update_of_ne other] at positive eligible
  exact ⟨positive, r, mem, eligible, fewer r.fp usable⟩

/-- Both kinds of grant keep the account: SLOT_MODE starts a new one at the next
terminal, CONT_MODE goes on with the terminal that was served. -/
private theorem Assign.Tried.grant {c : Fin n} {m left : ℕ} {u : Fin n} {w : Search n nf}
    (knownMode : cfg.KnownMode) (turn : u = advance c m) (some : left ≠ 0)
    (exact : cfg.mode = contMode → m + left = n)
    (infeasible : ∀ j < m, ¬ s.Feasible cfg (advance c j))
    (fewer : ∀ f v, w.store.Usable cfg f v → s.store.Usable cfg f v) :
    ∃ c m, (s.grant cfg left u w).Tried cfg c m := by
  obtain mode | mode := knownMode
  · refine ⟨advance u 1, 0, ⟨?_, ?_, ?_, by simp⟩⟩
    · simp [Assign.grant, mode]
    · simp [Assign.grant, mode]
    · exact fun cont => absurd (mode.symm.trans cont) slotMode_ne_contMode
  · have notSlot : cfg.mode ≠ slotMode := fun slot =>
      slotMode_ne_contMode (slot.symm.trans mode)
    have account : m + left = n := exact mode
    refine ⟨c, m, ⟨?_, ?_, ?_, ?_⟩⟩
    · simpa [Assign.grant, notSlot] using turn
    · simp only [Assign.grant, if_neg notSlot]
      exact account.ge
    · simpa [Assign.grant, notSlot] using exact
    · intro j hj feasible
      have other : advance c j ≠ u := by
        intro same
        rw [turn] at same
        have := advance_injOn (by omega) (by omega) same
        omega
      exact infeasible j hj (feasible.of_grant (fun f => fewer f _) other)

/-- The search for a terminal with a positive deficit goes on with the account: those that
it passes are not feasible either. -/
theorem Assign.Tried.pick {c : Fin n} {m : ℕ} (h : s.Tried cfg c m) :
    ∃ k, s.pick.2 = advance c k ∧ n ≤ k + s.pick.1 ∧
      (cfg.mode = contMode → k + s.pick.1 = n) ∧ ∀ j < k, ¬ s.Feasible cfg (advance c j) := by
  obtain ⟨skip, bound, picked, skipped, -⟩ := s.pick_spec
  refine ⟨m + skip, ?_, ?_, fun cont => ?_, fun j hj => ?_⟩
  · rw [picked, h.turn, advance_advance]
  · have := h.count
    rw [picked]
    simp only
    omega
  · have := h.exact cont
    rw [picked]
    simp only
    omega
  · obtain old | new := Nat.lt_or_ge j m
    · exact h.infeasible j old
    · intro feasible
      have nonpositive := skipped (j - m) (by omega)
      rw [h.turn, advance_advance, Nat.add_sub_cancel' new] at nonpositive
      exact absurd feasible.1 (not_lt.mpr nonpositive)

/-- A refusal counts its terminal in. -/
private theorem Assign.Tried.refuse {c : Fin n} {m left : ℕ} {u : Fin n} {offset : ℚ}
    (knownMode : cfg.KnownMode) (turn : u = advance c m) (some : left ≠ 0)
    (count : n ≤ m + left) (exact : cfg.mode = contMode → m + left = n)
    (infeasible : ∀ j < m, ¬ s.Feasible cfg (advance c j)) (full : ¬ s.Feasible cfg u) :
    (s.refuse cfg left u ⟨.null, offset, s.store⟩).Tried cfg c (m + 1) := by
  refine ⟨?_, ?_, fun cont => ?_, fun j hj => ?_⟩
  · show (if cfg.mode = contMode ∨ cfg.mode = slotMode then advance u 1 else u) = _
    rw [if_pos knownMode.symm, turn, advance_advance]
  · simp only [Assign.refuse]
    split <;> omega
  · have := exact cont
    simp only [Assign.refuse, if_pos cont]
    omega
  · obtain old | rfl := Nat.lt_succ_iff_lt_or_eq.mp hj
    · exact infeasible j old
    · rw [← turn]
      exact full

/-- Each pass keeps the account. -/
theorem Assign.Tried.body {c : Fin n} {m : ℕ} (knownMode : cfg.KnownMode)
    (knownLayout : cfg.KnownLayout) (h : s.Tried cfg c m) :
    ∃ c m, (s.body cfg).Tried cfg c m := by
  obtain ⟨k, turn, count, account, infeasible⟩ := h.pick
  have pass := s.body_pass cfg
  generalize s.body cfg = t at pass ⊢
  cases pass with
  | exhausted out =>
      rw [out] at count account
      exact ⟨c, k, ⟨turn, count, account, infeasible⟩⟩
  | granted r i j some mem eligible cell free =>
      exact Tried.grant knownMode turn some account infeasible fun f v => Store.Usable.of_take
  | stale stale =>
      exact Tried.grant knownMode turn stale.1 account infeasible fun f v usable => usable
  | refused offset some full =>
      exact ⟨c, k + 1, Tried.refuse knownMode turn some count account infeasible
        (full knownLayout)⟩

/-- If a stage returns with slots left, nobody is left who could use one. -/
theorem assignTimeslot_conserves (cfg : Config n nf) (knownMode : cfg.KnownMode)
    (knownLayout : cfg.KnownLayout) (al : AllocatorMFTDMA n nf) (reqVec : Fin n → ℕ)
    (bdes : List (BurstDes n)) (frame : FramePtr nf) (offset : ℚ) (t : Assign n nf)
    (returned : (assignTimeslot cfg).Returns
      ((al.initRequestQueues reqVec).enter bdes frame offset) t)
    (slots : t.freeslots ≠ 0) (u : Fin n) : ¬ t.Feasible cfg u := by
  obtain ⟨visited, exit⟩ := Loop.returns_iff.mp returned
  have start : ((al.initRequestQueues reqVec).enter bdes frame offset).Tried cfg al.curTerm 0 :=
    ⟨by simp [AllocatorMFTDMA.enter, AllocatorMFTDMA.initRequestQueues],
      by simp [AllocatorMFTDMA.enter, AllocatorMFTDMA.initRequestQueues],
      by simp [AllocatorMFTDMA.enter, AllocatorMFTDMA.initRequestQueues], by simp⟩
  obtain ⟨c, m, tried⟩ := visited.invariant (I := fun a => ∃ c m, a.Tried cfg c m)
    ⟨_, _, start⟩ fun a _ ⟨_, _, ha⟩ _ => ha.body knownMode knownLayout
  have empty : t.leftToCheck = 0 := by
    by_contra left
    rw [guard_iff.mpr ⟨slots, left⟩] at exit
    cases exit
  have all : n ≤ m := by
    have := tried.count
    rwa [empty] at this
  obtain ⟨k, hk, rfl⟩ := exists_advance_eq c u
  exact tried.infeasible k (by omega)

/-- One terminal and one carrier of two timeslots, in CONT_MODE. -/
def twoSlots : Config 1 1 := .oneFrame .oneByTwo (fun _ => [.any]) contMode bestFit

/-- A superframe that has just been reset. -/
def idle : AllocatorMFTDMA 1 1 where
  store := { frame := fun _ _ _ => nothingToSend, mask := fun _ _ => 0 }
  deficit _ := 0
  a _ := 0
  freeslots := 2
  leftToCheck := 1
  curTerm := ⟨0, Nat.one_pos⟩
  cnstRate _ := 10
  reqvRate _ := 0
  reqvVolume _ := 0
  utilization := 0
  load := 0

/-- A request of ten bytes gets one slot, and the other one stays free. -/
theorem assignTimeslot_conserves_idle :
    ¬ ((((idle.initRequestQueues fun _ => 10).enter [] .null 0).body twoSlots).body
      twoSlots).Feasible twoSlots 0 := by
  have first : (assignTimeslot twoSlots).guard
      ((idle.initRequestQueues fun _ => 10).enter [] .null 0) = true := rfl
  have second : (assignTimeslot twoSlots).guard
      (((idle.initRequestQueues fun _ => 10).enter [] .null 0).body twoSlots) = true := by
    decide +kernel
  have exit : (assignTimeslot twoSlots).guard
      ((((idle.initRequestQueues fun _ => 10).enter [] .null 0).body twoSlots).body
        twoSlots) = false := by
    decide +kernel
  exact assignTimeslot_conserves twoSlots (.inr rfl) (.inr rfl) idle (fun _ => 10) [] .null 0 _
    (Loop.returns_iff.mpr ⟨.pass (.pass .entry first) second, exit⟩) (by decide +kernel) 0

end Mftdma.Allocator
