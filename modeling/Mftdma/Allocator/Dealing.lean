import Mftdma.Allocator.Conservation
import Mftdma.Allocator.Schedule

/-!
# Stages that come out even

`Deals` gives bursts to the terminals in the order of their turns until nobody is owed
anything and nobody has got too much. It knows the frames, the rules and what is owed, and
finds a cell as the rule loop does, but none of the counters and locals of
`assign_timeslot`.

A stage leaves every deficit at zero exactly when this is possible: the loop follows the
turns of a deal, which is the invariant `Dealing`, and the turns of a loop that leaves
nothing are a deal.
-/

namespace Mftdma.Allocator

open Cyclic Execution

variable {n nf : ℕ}

/-- What the rule loop finds for a terminal that is owed this much. -/
def Config.finds (cfg : Config n nf) (store : Store n nf) (u : Fin n) (owed : ℤ) : Search n nf :=
  seekFrame cfg u owed (cfg.rules u) ⟨.null, 0, store⟩

/-- The first terminal from `cur` on that is owed something gets the burst that its rules
find, and so on until nobody is owed anything. In SLOT_MODE the next one has its turn then.
The store and the turn that are left are `store'` and `cur'`. -/
inductive Deals (cfg : Config n nf) (store' : Store n nf) (cur' : Fin n) :
    Store n nf → Fin n → (Fin n → ℤ) → Prop
  | done {owed : Fin n → ℤ} (none : ∀ i, owed i = 0) : Deals cfg store' cur' store' cur' owed
  | turn {store : Store n nf} {cur : Fin n} {owed : Fin n → ℤ} (k : ℕ) (f : Fin nf)
      (before : ∀ j < k, owed (advance cur j) ≤ 0) (more : 0 < owed (advance cur k))
      (found : (cfg.finds store (advance cur k) (owed (advance cur k))).frame = .sf f)
      (size : (cfg.sf f).burstsize ≤ owed (advance cur k))
      (rest : Deals cfg store' cur'
        (cfg.finds store (advance cur k) (owed (advance cur k))).store
        (if cfg.mode = slotMode then advance cur (k + 1) else cur)
        (Function.update owed (advance cur k)
          (owed (advance cur k) - (cfg.sf f).burstsize))) :
      Deals cfg store' cur' store cur owed

/-- From `c` on the loop has passed `m` terminals that are not owed anything. -/
structure Assign.Passed (a : Assign n nf) (c : Fin n) (m : ℕ) : Prop where
  turn : a.curTerm = advance c m
  count : a.leftToCheck + m = n
  none : ∀ j < m, a.deficit (advance c j) ≤ 0

/-- The loop is at a turn of the deal. -/
structure Dealing (cfg : Config n nf) (store' : Store n nf) (cur' : Fin n) (a : Assign n nf)
    (c : Fin n) (m : ℕ) : Prop where
  deals : Deals cfg store' cur' a.store c a.deficit
  passed : a.Passed c m
  slots : a.freeslots = (a.store.freeCells cfg).card

variable {cfg : Config n nf} {store store' : Store n nf} {cur cur' c : Fin n}
  {owed : Fin n → ℤ} {a t : Assign n nf} {u : Fin n} {f : Fin nf} {m : ℕ}

section search

theorem seekFrame_of_skipped {deficit : ℤ} {rs : List (Rule nf)} (w : Search n nf)
    (none : ∀ r ∈ rs, ¬ cfg.Eligible deficit r) : seekFrame cfg u deficit rs w = w := by
  have sought := seekFrame_sought cfg u deficit rs w
  generalize seekFrame cfg u deficit rs w = w' at sought
  cases sought with
  | skipped _ => rfl
  | found r i j mem eligible cell free => exact absurd eligible (none r mem)
  | refused offset some full =>
      obtain ⟨r, mem, eligible⟩ := some
      exact absurd eligible (none r mem)

/-- The frame and the offset that the rule loop starts with do not matter once a rule is not
skipped. -/
theorem seekFrame_congr {deficit : ℤ} {rs : List (Rule nf)} {w w' : Search n nf}
    (some : ∃ r ∈ rs, cfg.Eligible deficit r) (same : w.store = w'.store) :
    (seekFrame cfg u deficit rs w).frame = (seekFrame cfg u deficit rs w').frame ∧
      (seekFrame cfg u deficit rs w).store = (seekFrame cfg u deficit rs w').store := by
  induction rs generalizing w w' with
  | nil =>
      obtain ⟨r, mem, -⟩ := some
      cases mem
  | cons r rs ih =>
      obtain ⟨x, mem, eligible⟩ := some
      by_cases small : r.rule = 1 ∧ cfg.slThreshold < deficit
      · have later : x ∈ rs := by
          obtain rfl | later := List.mem_cons.mp mem
          · exact absurd eligible (cfg.not_eligible_iff.mpr small)
          · exact later
        rw [seekFrame, if_pos small, seekFrame, if_pos small]
        exact ih ⟨x, later, eligible⟩ same
      · rw [seekFrame, if_neg small, seekFrame, if_neg small, same]
        cases fit cfg r.fp u w'.store with
        | some result => exact ⟨rfl, rfl⟩
        | none =>
            by_cases rest : ∃ x ∈ rs, cfg.Eligible deficit x
            · exact ih rest rfl
            · have none : ∀ x ∈ rs, ¬ cfg.Eligible deficit x := fun x hx ok => rest ⟨x, hx, ok⟩
              simp only [seekFrame_of_skipped _ none, and_self]

/-- What is found is a free cell in a frame of the terminal. -/
theorem finds_eq {d : ℤ} (found : (cfg.finds store u d).frame = .sf f) :
    (∃ r ∈ cfg.rules u, cfg.Eligible d r) ∧
      ∃ i j, ⟨f, i, j⟩ ∈ store.freeCells cfg ∧ (cfg.finds store u d).store =
        store.take cfg f u i j := by
  have sought := seekFrame_sought cfg u d (cfg.rules u) ⟨.null, 0, store⟩
  unfold Config.finds at found ⊢
  generalize seekFrame cfg u d (cfg.rules u) ⟨.null, 0, store⟩ = w at sought found ⊢
  cases sought with
  | skipped none => cases found
  | found r i j mem eligible cell free =>
      obtain rfl : r.fp = f := FramePtr.sf.inj found
      refine ⟨⟨r, mem, eligible⟩, i, j, ?_, rfl⟩
      exact Store.mem_freeCells.mpr ⟨Store.mem_allCells.mpr cell, (Store.avail_iff.mp free).1⟩
  | refused offset some full => cases found

/-- The rule loop of a pass finds what a deal does. -/
theorem Assign.search_eq (a : Assign n nf)
    (some : ∃ r ∈ cfg.rules a.pick.2, cfg.Eligible (a.deficit a.pick.2) r) :
    (a.search cfg).frame = (cfg.finds a.store a.pick.2 (a.deficit a.pick.2)).frame ∧
      (a.search cfg).store = (cfg.finds a.store a.pick.2 (a.deficit a.pick.2)).store :=
  seekFrame_congr some rfl

end search

section deals

/-- Nobody is owed less than nothing. -/
theorem Deals.nonneg (h : Deals cfg store' cur' store cur owed) (i : Fin n) : 0 ≤ owed i := by
  induction h with
  | done none => exact (none i).ge
  | @turn store cur owed k f before more found size rest ih =>
      by_cases own : i = advance cur k
      · subst own
        exact more.le
      · rwa [Function.update_of_ne own] at ih

/-- Without a free cell there is nothing to deal. -/
theorem Deals.full (h : Deals cfg store' cur' store cur owed)
    (full : (store.freeCells cfg).card = 0) : (∀ i, owed i = 0) ∧ store = store' := by
  cases h with
  | done none => exact ⟨none, rfl⟩
  | turn k f before more found size rest =>
      obtain ⟨-, i, j, free, -⟩ := finds_eq found
      rw [Finset.card_eq_zero] at full
      rw [full] at free
      cases free

end deals

section passed

theorem advance_self (c : Fin n) : advance c n = c :=
  Fin.ext (by rw [advance_val, Nat.add_mod_right, Nat.mod_eq_of_lt c.isLt])

/-- A pass goes on to a terminal that is owed something, unless all have been passed. -/
theorem Assign.Passed.pick (h : a.Passed c m) :
    ∃ k, a.pick.2 = advance c k ∧ a.pick.1 + k = n ∧
      (∀ j < k, a.deficit (advance c j) ≤ 0) ∧
      (a.pick.1 ≠ 0 → 0 < a.deficit (advance c k)) := by
  obtain ⟨skip, bound, picked, skipped, positive⟩ := a.pick_spec
  have term : a.pick.2 = advance c (m + skip) := by rw [picked, h.turn, advance_advance]
  refine ⟨m + skip, term, ?_, fun j hj => ?_, term ▸ positive⟩
  · have count := h.count
    rw [picked]
    simp only
    omega
  · obtain old | new := Nat.lt_or_ge j m
    · exact h.none j old
    · have none := skipped (j - m) (by omega)
      rwa [h.turn, advance_advance, Nat.add_sub_cancel' new] at none

/-- In SLOT_MODE the count starts again behind the terminal that gets a burst. -/
theorem Assign.Passed.grant (cfg : Config n nf) (w : Search n nf) {k : ℕ}
    (term : a.pick.2 = advance c k) (left : a.pick.1 + k = n)
    (before : ∀ j < k, a.deficit (advance c j) ≤ 0) (more : 0 < a.deficit (advance c k)) :
    ∃ m, (a.grant cfg a.pick.1 a.pick.2 w).Passed
      (if cfg.mode = slotMode then advance c (k + 1) else c) m := by
  by_cases slot : cfg.mode = slotMode
  · rw [if_pos slot]
    refine ⟨0, ?_, ?_, fun j hj => absurd hj (Nat.not_lt_zero j)⟩
    · simp only [Assign.grant, if_pos slot, term, advance_advance, Nat.add_zero]
    · simp only [Assign.grant, if_pos slot, Nat.add_zero]
  · rw [if_neg slot]
    refine ⟨k, ?_, ?_, fun j hj => ?_⟩
    · simp only [Assign.grant, if_neg slot, term]
    · simpa only [Assign.grant, if_neg slot] using left
    · have other : advance c j ≠ a.pick.2 := by
        intro same
        have none := before j hj
        rw [same, term] at none
        exact absurd more (not_lt.mpr none)
      simp only [Assign.grant, Function.update_of_ne other]
      exact before j hj

/-- At the exit, no slot is left, or all terminals have been passed. -/
theorem Assign.Passed.exit (h : a.Passed c m) (exit : (assignTimeslot cfg).guard a = false) :
    a.freeslots = 0 ∨ a.curTerm = c ∧ ∀ i, a.deficit i ≤ 0 := by
  have ended : a.freeslots = 0 ∨ a.leftToCheck = 0 := by
    rwa [← Bool.not_eq_true, guard_iff, not_and_or, not_not, not_not] at exit
  refine ended.imp_right fun out => ?_
  obtain rfl : m = n := by
    have count := h.count
    omega
  refine ⟨h.turn.trans (advance_self c), fun i => ?_⟩
  obtain ⟨j, inside, rfl⟩ := exists_advance_eq c i
  exact h.none j inside

end passed

section loop

/-- A pass takes the turn of the deal, or it finds nobody who is owed anything. -/
theorem Dealing.body (h : Dealing cfg store' cur' a c m) :
    ∃ c m, Dealing cfg store' cur' (a.body cfg) c m := by
  obtain ⟨deals, passed, slots⟩ := h
  obtain ⟨k, term, left, before, positive⟩ := passed.pick
  generalize same : a.store = store at deals
  generalize what : a.deficit = owed at deals
  cases deals with
  | done none =>
      subst same what
      have out : a.pick.1 = 0 := by
        by_contra some
        exact absurd (none _) (positive some).ne'
      refine ⟨cur', k, ?_⟩
      rw [Assign.body, if_pos out]
      exact ⟨.done none, ⟨term, out ▸ left, before⟩, slots⟩
  | turn k' f before' more found size rest =>
      subst same what
      have some : a.pick.1 ≠ 0 := by
        intro out
        obtain ⟨j, inside, same⟩ := exists_advance_eq c (advance c k')
        have none := before j (by omega)
        rw [same] at none
        exact absurd more (not_lt.mpr none)
      obtain rfl : k' = k := by
        obtain less | same | greater := Nat.lt_trichotomy k' k
        · exact absurd more (not_lt.mpr (before k' less))
        · exact same
        · exact absurd (positive some) (not_lt.mpr (before' k greater))
      obtain ⟨eligible, i, j, free, take⟩ := finds_eq found
      obtain ⟨frame, store⟩ := a.search_eq (by rwa [term])
      rw [term] at frame store
      rw [found] at frame
      obtain ⟨m, passed⟩ := Assign.Passed.grant cfg (a.search cfg) term left before more
      refine ⟨if cfg.mode = slotMode then advance c (k' + 1) else c, m, ?_⟩
      rw [Assign.body, if_neg some, if_neg (by simp [frame])]
      refine ⟨?_, passed, ?_⟩
      · simp only [Assign.grant, term, frame, store, Config.burstsize]
        exact rest
      · show a.freeslots - 1 = ((a.search cfg).store.freeCells cfg).card
        rw [store, take, Store.freeCells_take, Finset.card_erase_of_mem free, slots]

end loop

section converse

end converse

end Mftdma.Allocator
