import Mftdma.Allocator.Conservation
import Mftdma.Allocator.Rounds

/-!
# Round-robin turns in SLOT_MODE

In SLOT_MODE every pass hands the turn on to the next terminal, granted or refused. Between
two grants to a terminal the turn has therefore gone all the way round. `Lap` keeps what is
known of the terminals that it has passed: each of them got a burst, or could not be served
when it was its turn, and then cannot be served now.
-/

namespace Mftdma.Allocator

open Cyclic Execution

variable {n nf : ℕ} {cfg : Config n nf} {s c : Assign n nf} {t u : Fin n}
  {old new : List (BurstDes n)} {k : ℕ}

/-- The pass that starts in `s` is run and appends a descriptor of the terminal `t`. -/
def Assign.Grants (cfg : Config n nf) (s : Assign n nf) (t : Fin n) : Prop :=
  (assignTimeslot cfg).guard s = true ∧
    ∃ b : BurstDes n, (s.body cfg).bdes = s.bdes ++ [b] ∧ b.assignmentId = t

/-- A terminal that was served since `new` was begun, or cannot be served in this state. -/
def Assign.Treated (cfg : Config n nf) (s : Assign n nf) (new : List (BurstDes n)) (u : Fin n) :
    Prop :=
  (∃ b ∈ new, b.assignmentId = u) ∨ ¬ s.Feasible cfg u

/-- The turn is `k` steps past `t`, `new` was appended meanwhile, and the other terminals that
were passed are treated. -/
structure Assign.Lap (cfg : Config n nf) (s : Assign n nf) (t : Fin n) (old : List (BurstDes n))
    (k : ℕ) (new : List (BurstDes n)) : Prop where
  started : 0 < k
  turn : s.curTerm = advance t k
  grown : s.bdes = old ++ new
  passed : ∀ u, u ≠ t → gap t u < k → s.Treated cfg new u

/-- The search for a positive deficit walks on: whom it skips cannot be served. -/
theorem Assign.Lap.pick (h : s.Lap cfg t old k new) : ∃ k', 0 < k' ∧ s.pick.2 = advance t k' ∧
    ∀ u, u ≠ t → gap t u < k' → s.Treated cfg new u := by
  obtain ⟨m, -, picked, skipped, -⟩ := s.pick_spec
  refine ⟨k + m, Nat.lt_add_right m h.started, ?_, fun u other inside => ?_⟩
  · rw [picked, h.turn, advance_advance]
  · obtain early | late := Nat.lt_or_ge (gap t u) k
    · exact h.passed u other early
    · right
      intro feasible
      have nonpositive := skipped (gap t u - k) (by omega)
      rw [h.turn, advance_advance, Nat.add_sub_cancel' late, advance_gap] at nonpositive
      exact absurd feasible.1 (not_lt.mpr nonpositive)

/-- A grant treats the terminal that gets it, and no other one can be served by it. -/
theorem Assign.Treated.grant {left : ℕ} {v : Fin n} {w : Search n nf} {b : BurstDes n}
    (own : b.assignmentId = v) (fewer : ∀ f u, w.store.Usable cfg f u → s.store.Usable cfg f u)
    (h : u ≠ v → s.Treated cfg new u) : (s.grant cfg left v w).Treated cfg (new ++ [b]) u := by
  by_cases same : u = v
  · left
    exact ⟨b, List.mem_append_right _ (List.mem_singleton.mpr rfl), own.trans same.symm⟩
  · obtain ⟨b', mem, own'⟩ | stuck := h same
    · exact .inl ⟨b', List.mem_append_left _ mem, own'⟩
    · right
      intro feasible
      exact stuck (feasible.of_grant (fun f => fewer f u) same)

/-- A grant goes on with the lap. -/
private theorem Assign.Lap.grant (slot : cfg.mode = slotMode) {left : ℕ} {w : Search n nf}
    (turn : u = advance t k) (grown : s.bdes = old ++ new)
    (passed : ∀ v, v ≠ t → gap t v < k → s.Treated cfg new v)
    (fewer : ∀ f v, w.store.Usable cfg f v → s.store.Usable cfg f v) :
    (s.grant cfg left u w).Lap cfg t old (k + 1)
      (new ++ [⟨u, w.offset, cfg.burstsize w.frame⟩]) := by
  refine ⟨Nat.succ_pos k, ?_, ?_, fun v other inside => ?_⟩
  · show (if cfg.mode = slotMode then advance u 1 else u) = _
    rw [if_pos slot, turn, advance_advance]
  · show s.bdes ++ [_] = _
    rw [grown, List.append_assoc]
  · refine Treated.grant rfl fewer fun before => passed v other ?_
    exact (eq_advance_or_gap_lt inside).resolve_left fun here => before (here.trans turn.symm)

/-- Each pass goes on with the lap. -/
theorem Assign.Lap.body (slot : cfg.mode = slotMode) (known : cfg.KnownLayout)
    (h : s.Lap cfg t old k new) : ∃ k new, (s.body cfg).Lap cfg t old k new := by
  obtain ⟨k', pos, turn, passed⟩ := h.pick
  have pass := s.body_pass cfg
  generalize s.body cfg = s' at pass ⊢
  cases pass with
  | exhausted out => exact ⟨k', new, pos, turn, h.grown, passed⟩
  | granted r i j some mem eligible cell free =>
      exact ⟨_, _, Lap.grant slot turn h.grown passed fun f v => Store.Usable.of_take⟩
  | stale stale =>
      exact ⟨_, _, Lap.grant slot turn h.grown passed fun f v usable => usable⟩
  | refused offset some full =>
      refine ⟨k' + 1, new, Nat.succ_pos k', ?_, h.grown, fun u other inside => ?_⟩
      · show (if cfg.mode = contMode ∨ cfg.mode = slotMode then advance s.pick.2 1 else _) = _
        rw [if_pos (.inr slot), turn, advance_advance]
      · obtain here | before := eq_advance_or_gap_lt inside
        · right
          rw [here, ← turn]
          exact full known
        · exact passed u other before

/-- A terminal is granted a burst when the search picks it. -/
theorem Assign.Grants.eq_grant (h : s.Grants cfg t) :
    s.pick.2 = t ∧ ∃ w, s.body cfg = s.grant cfg s.pick.1 t w := by
  obtain ⟨-, b, appended, own⟩ := h
  obtain ⟨same, -⟩ | ⟨w, -, granted⟩ := s.body_grants cfg
  · rw [same] at appended
    exact absurd (List.self_eq_append_right.mp appended) (List.cons_ne_nil b [])
  · rw [granted] at appended
    have entry := List.singleton_inj.mp (List.append_cancel_left appended)
    have picked : s.pick.2 = t := (congrArg BurstDes.assignmentId entry).trans own
    exact ⟨picked, w, picked ▸ granted⟩

/-- A grant begins a lap. -/
theorem Assign.Grants.lap (slot : cfg.mode = slotMode) (h : s.Grants cfg t) :
    (s.body cfg).Lap cfg t (s.body cfg).bdes 1 [] := by
  obtain ⟨-, w, granted⟩ := h.eq_grant
  refine ⟨Nat.one_pos, ?_, (List.append_nil _).symm, fun u other inside => ?_⟩
  · rw [granted]
    exact if_pos slot
  · have same : u = advance t 0 := (eq_advance_or_gap_lt inside).resolve_right (Nat.not_lt_zero _)
    exact absurd (same.trans (advance_zero t)) other

/-- Two grants to a terminal in one call of `assign_timeslot`: in between, every other
terminal that could be served at the second of them has got a burst. -/
theorem slotMode_fair (cfg : Config n nf) (slot : cfg.mode = slotMode) (known : cfg.KnownLayout)
    {a c : Assign n nf} {t : Fin n} (first : a.Grants cfg t)
    (between : (assignTimeslot cfg).Visits (a.body cfg) c) (second : c.Grants cfg t) (u : Fin n)
    (other : u ≠ t) (feasible : c.Feasible cfg u) :
    ∃ new, c.bdes = (a.body cfg).bdes ++ new ∧ ∃ b ∈ new, b.assignmentId = u := by
  obtain ⟨k, new, lap⟩ := between.invariant
    (I := fun s => ∃ k new, s.Lap cfg t (a.body cfg).bdes k new) ⟨1, [], first.lap slot⟩
    fun s _ ⟨_, _, lap⟩ _ => lap.body slot known
  obtain ⟨k', pos, turn, passed⟩ := lap.pick
  have back : advance t k' = t := turn.symm.trans second.eq_grant.1
  obtain served | stuck := passed u other (gap_lt_of_advance_eq_self pos back u)
  · exact ⟨new, lap.grown, served⟩
  · exact absurd feasible stuck

/-- Two terminals that take turns in a frame of four slots. -/
def turns : Config 2 1 := .oneFrame .oneByFour (fun _ => [.any]) slotMode firstFit

/-- Both ask for two slots, and terminal 0 has its turn. -/
def bothAskTwice : Assign 2 1 where
  store := { frame := fun _ _ _ => nothingToSend, mask := fun _ _ => 0 }
  deficit _ := 20
  a _ := 0
  freeslots := 4
  leftToCheck := 2
  curTerm := ⟨0, Nat.two_pos⟩
  cnstRate _ := 20
  reqvRate _ := 0
  reqvVolume _ := 0
  utilization := 0
  load := 40
  bdes := []
  frame := .null
  offset := 0

theorem slotMode_fair_turns : ∃ new, ((bothAskTwice.body turns).body turns).bdes =
    (bothAskTwice.body turns).bdes ++ new ∧ ∃ b ∈ new, b.assignmentId = ⟨1, Nat.one_lt_two⟩ := by
  have again : (assignTimeslot turns).guard (bothAskTwice.body turns) = true := by decide +kernel
  exact slotMode_fair turns rfl (.inl rfl) (a := bothAskTwice) (t := ⟨0, Nat.two_pos⟩)
    ⟨rfl, ⟨⟨0, Nat.two_pos⟩, 0, 10⟩, by decide +kernel, rfl⟩ (.pass .entry again)
    ⟨by decide +kernel, ⟨⟨0, Nat.two_pos⟩, 1 / 2, 10⟩, by decide +kernel, rfl⟩ _
    (by decide) (by decide +kernel)

end Mftdma.Allocator
