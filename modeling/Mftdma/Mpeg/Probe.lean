import Mftdma.Mpeg.Packer

/-!
# The probe of `get_queue`

`get_queue` walks round its table from `addr % N_QUEUES` on, with the remainder of C,
which has the sign of `addr`. Here the walk is a loop on integers, as in the source,
and the memory around the table has some content too.

From an address that is not negative the walk is the search on the table that the
packer and the reassembly use. The address of a broadcast is -1, and from there the
walk begins before the table and never comes back to where it began.
-/

namespace Mftdma.Mpeg

open Execution

/-- How `get_queue` ends. -/
inductive Outcome where
  | slot (l : ℤ)
  | abort
deriving DecidableEq

/-- The locals `k` and `l`, the indices that the buffer has been read at, and the
outcome once there is one. -/
structure Probe where
  k : ℤ
  l : ℤ
  inspected : List ℤ
  outcome : Option Outcome

/-- `k = l = ( addr % N_QUEUES )` -/
def Probe.entry (addr : ℤ) : Probe where
  k := addr.tmod nQueues
  l := addr.tmod nQueues
  inspected := []
  outcome := none

/-- The slot is empty or belongs to the address. -/
def Stops (buffer : ℤ → Option ℤ) (addr l : ℤ) : Prop := buffer l = none ∨ buffer l = some addr

instance (buffer : ℤ → Option ℤ) (addr l : ℤ) : Decidable (Stops buffer addr l) :=
  inferInstanceAs (Decidable (_ ∨ _))

/-- `do … while (k != l)`, which is left by `return` and ends in `abort`. -/
def probe (buffer : ℤ → Option ℤ) (addr : ℤ) : Loop Probe where
  guard a := a.outcome.isNone
  body a :=
    let l := (a.l + 1).tmod nQueues
    { k := a.k
      l := if Stops buffer addr a.l then a.l else l
      inspected := a.inspected ++ [a.l]
      outcome :=
        if Stops buffer addr a.l then some (.slot a.l) else if a.k = l then some .abort else none }

def InTable (l : ℤ) : Prop := 0 ≤ l ∧ l < nQueues

/-- What is asked of `get_queue`: it reads the table and nothing else, it ends, the slot
it returns is empty or belongs to the address, and it aborts only when all are taken. -/
structure Probes (buffer : ℤ → Option ℤ) (addr : ℤ) : Prop where
  inside : ∀ a, (probe buffer addr).Visits (.entry addr) a → ∀ l ∈ a.inspected, InTable l
  ends : (probe buffer addr).Terminates (.entry addr)
  slot : ∀ a l, (probe buffer addr).Returns (.entry addr) a → a.outcome = some (.slot l) →
    InTable l ∧ Stops buffer addr l
  full : ∀ a, (probe buffer addr).Returns (.entry addr) a → a.outcome = some .abort →
    ∀ l, InTable l → ¬ Stops buffer addr l

variable {buffer : ℤ → Option ℤ} {addr : ℤ} {n : ℕ} {a : Probe}

/-- The `j`-th slot of the walk from the home of an address. -/
def walk (n j : ℕ) : Slot := Cyclic.advance (home n) j

theorem tmod_natCast (n : ℕ) : Int.tmod n nQueues = ((home n : ℕ) : ℤ) := by
  rw [Int.tmod_eq_emod_of_nonneg (Int.natCast_nonneg n)]
  rfl

theorem walk_zero (n : ℕ) : walk n 0 = home n := Cyclic.advance_zero _

theorem inTable_slot (l : Slot) : InTable ((l : ℕ) : ℤ) :=
  ⟨Int.natCast_nonneg _, Int.ofNat_lt.mpr l.isLt⟩

theorem exists_slot {l : ℤ} (inside : InTable l) : ∃ q : Slot, l = ((q : ℕ) : ℤ) := by
  obtain ⟨m, rfl⟩ := Int.eq_ofNat_of_zero_le inside.1
  exact ⟨⟨m, Int.ofNat_lt.mp inside.2⟩, rfl⟩

/-- `l = ( l + 1 ) % N_QUEUES` -/
theorem tmod_walk (n j : ℕ) :
    (((walk n j : ℕ) : ℤ) + 1).tmod nQueues = ((walk n (j + 1) : ℕ) : ℤ) := by
  have next : walk n (j + 1) = Cyclic.advance (walk n j) 1 := (Cyclic.advance_advance _ j 1).symm
  rw [next]
  exact tmod_natCast ((walk n j : ℕ) + 1)

/-- Where the walk from an address that is not negative has come to. -/
structure Walks (buffer : ℤ → Option ℤ) (n : ℕ) (a : Probe) : Prop where
  start : a.k = ((home n : ℕ) : ℤ)
  inside : ∀ l ∈ a.inspected, InTable l
  going : a.outcome = none → a.inspected.length < nQueues ∧
    a.l = ((walk n a.inspected.length : ℕ) : ℤ) ∧
    ∀ i < a.inspected.length, ¬ Stops buffer n ((walk n i : ℕ) : ℤ)
  found : ∀ l, a.outcome = some (.slot l) → ∃ j < nQueues, l = ((walk n j : ℕ) : ℤ) ∧
    Stops buffer n l ∧ ∀ i < j, ¬ Stops buffer n ((walk n i : ℕ) : ℤ)
  full : a.outcome = some .abort → ∀ i < nQueues, ¬ Stops buffer n ((walk n i : ℕ) : ℤ)

theorem walks_entry (buffer : ℤ → Option ℤ) (n : ℕ) : Walks buffer n (.entry n) where
  start := tmod_natCast n
  inside l hl := by cases hl
  going _ := by
    refine ⟨Nat.pos_of_neZero nQueues, ?_, fun i hi => absurd hi i.not_lt_zero⟩
    exact (tmod_natCast n).trans (congrArg (fun l : Slot => ((l : ℕ) : ℤ)) (walk_zero n).symm)
  found _ h := by cases h
  full h := by cases h

/-- The walk is back at its start after `N_QUEUES` slots and not before. -/
theorem walk_eq_home_iff {j : ℕ} (hj : j < nQueues) :
    home n = walk n (j + 1) ↔ j + 1 = nQueues := by
  constructor
  · intro back
    by_contra early
    have same : walk n 0 = walk n (j + 1) := (walk_zero n).trans back
    have none := Cyclic.advance_injOn (c := home n) (by decide : 0 < nQueues)
      (by omega : j + 1 < nQueues) same
    cases none
  · intro round
    apply Fin.ext
    rw [walk, round, Cyclic.advance_val, Nat.add_mod_right, Nat.mod_eq_of_lt (home n).isLt]

theorem Walks.body (h : Walks buffer n a) (guard : (probe buffer n).guard a = true) :
    Walks buffer n ((probe buffer n).body a) := by
  obtain ⟨bound, here, before⟩ := h.going (Option.isNone_iff_eq_none.mp guard)
  have length : (a.inspected ++ [a.l]).length = a.inspected.length + 1 := List.length_append
  have next : (a.l + 1).tmod nQueues = ((walk n (a.inspected.length + 1) : ℕ) : ℤ) := by
    rw [here, tmod_walk]
  have inside : ∀ l ∈ a.inspected ++ [a.l], InTable l := by
    intro l hl
    obtain old | new := List.mem_append.mp hl
    · exact h.inside l old
    · rw [List.mem_singleton.mp new, here]
      exact inTable_slot _
  by_cases stop : Stops buffer n a.l
  · refine ⟨h.start, inside, fun going => ?_, fun l hl => ?_, fun full => ?_⟩
    · simp [probe, stop] at going
    · simp only [probe, if_pos stop, Option.some.injEq, Outcome.slot.injEq] at hl
      subst hl
      exact ⟨_, bound, here, stop, before⟩
    · simp [probe, stop] at full
  · have passed : ∀ i < a.inspected.length + 1, ¬ Stops buffer n ((walk n i : ℕ) : ℤ) := by
      intro i hi
      obtain earlier | rfl := Nat.lt_succ_iff_lt_or_eq.mp hi
      · exact before i earlier
      · rwa [← here]
    have round : a.k = (a.l + 1).tmod nQueues ↔ a.inspected.length + 1 = nQueues := by
      rw [h.start, next, ← walk_eq_home_iff (n := n) bound, Int.natCast_inj, Fin.val_inj]
    refine ⟨h.start, inside, fun going => ?_, fun l hl => ?_, fun full => ?_⟩
    · simp only [probe, if_neg stop, round] at going ⊢
      have less : a.inspected.length + 1 ≠ nQueues := by
        intro last
        simp [last] at going
      rw [length]
      exact ⟨by omega, next, passed⟩
    · simp only [probe, if_neg stop] at hl
      split_ifs at hl
      cases Option.some.inj hl
    · simp only [probe, if_neg stop, round] at full
      split_ifs at full with last
      exact fun i hi => passed i (hi.trans_eq last.symm)

theorem walks_of_visits (h : (probe buffer n).Visits (.entry n) a) : Walks buffer n a :=
  h.invariant (walks_entry buffer n) fun _ _ walks guard => walks.body guard

/-- The slots that are still to be looked at. -/
def Probe.left (a : Probe) : ℕ := if a.outcome.isNone then nQueues - a.inspected.length else 0

theorem exists_probe (buffer : ℤ → Option ℤ) (n : ℕ) :
    (probe buffer n).Terminates (.entry n) := by
  have bounded := Loop.exists_exec_of_rank (l := probe buffer n) (I := Walks buffer n) Probe.left
    (walks_entry buffer n) (fun _ walks guard => walks.body guard) (by
      intro a walks guard
      obtain ⟨bound, -, -⟩ := walks.going (Option.isNone_iff_eq_none.mp guard)
      have none : a.outcome.isNone = true := guard
      rw [Probe.left, Probe.left, if_pos none]
      split_ifs
      · show nQueues - (a.inspected ++ [a.l]).length < _
        rw [List.length_append, List.length_singleton]
        omega
      · omega)
  obtain ⟨a, exec⟩ := bounded
  exact ⟨a, _, exec⟩

theorem probes_natCast (buffer : ℤ → Option ℤ) (n : ℕ) : Probes buffer n where
  inside _ visited := (walks_of_visits visited).inside
  ends := exists_probe buffer n
  slot a l returned found := by
    obtain ⟨j, -, rfl, stop, -⟩ := (walks_of_visits (Loop.returns_iff.mp returned).1).found l found
    exact ⟨inTable_slot _, stop⟩
  full a returned full l inside := by
    obtain ⟨q, rfl⟩ := exists_slot inside
    obtain ⟨j, hj, rfl⟩ := Cyclic.exists_advance_eq (home n) q
    exact (walks_of_visits (Loop.returns_iff.mp returned).1).full full j hj

/-- The walk from -1 begins before the table. -/
theorem not_probes_broadcast (buffer : ℤ → Option ℤ) : ¬ Probes buffer (-1) := by
  intro probes
  have visited :
      (probe buffer (-1)).Visits (.entry (-1)) ((probe buffer (-1)).body (.entry (-1))) :=
    .pass .entry rfl
  have low := (probes.inside _ visited (-1) (List.mem_singleton_self _)).1
  exact absurd low (by decide)

/-- Of the addresses that `sendDown` accepts, `get_queue` is right for all but the one
of a broadcast. -/
theorem probes_iff (buffer : ℤ → Option ℤ) (accepted : -1 ≤ addr) :
    Probes buffer addr ↔ 0 ≤ addr := by
  constructor
  · intro probes
    by_contra negative
    obtain rfl : addr = -1 := by omega
    exact not_probes_broadcast buffer probes
  · intro signed
    obtain ⟨n, rfl⟩ := Int.eq_ofNat_of_zero_le signed
    exact probes_natCast buffer n

/-- A table in which the slots from 98 over the end to 1 are taken. -/
def crowdedEnd (l : ℤ) : Option ℤ := if 98 ≤ l ∨ l ≤ 1 then some 7 else none

theorem probes_crowdedEnd : Probes crowdedEnd 398 ∧
    ∃ a, (probe crowdedEnd 398).Returns (.entry 398) a ∧ a.outcome = some (.slot 2) :=
  ⟨(probes_iff crowdedEnd (by decide)).mpr (by decide), _, ⟨5, rfl⟩, rfl⟩

/-- In an empty table the slot for a broadcast is the one before the table. -/
theorem not_probes_empty : ¬ Probes (fun _ => none) (-1) ∧
    ∃ a, (probe (fun _ => none) (-1)).Returns (.entry (-1)) a ∧ a.outcome = some (.slot (-1)) :=
  ⟨not_probes_broadcast _, _, ⟨1, rfl⟩, rfl⟩

/-- When no slot from -1 on will do, the walk for a broadcast never ends. -/
theorem probe_broadcast_hangs (taken : ∀ l : ℤ, -1 ≤ l → l < nQueues → ¬ Stops buffer (-1) l) :
    ¬ (probe buffer (-1)).Terminates (.entry (-1)) := by
  apply Loop.not_terminates_of_closed
    (C := fun a : Probe => a.outcome = none ∧ a.k = -1 ∧ -1 ≤ a.l ∧ a.l < (nQueues : ℤ))
  · exact ⟨rfl, rfl, by decide, by decide⟩
  · rintro a ⟨going, -, -, -⟩
    exact Option.isNone_iff_eq_none.mpr going
  · rintro a ⟨-, start, low, high⟩
    have busy : ¬ Stops buffer (-1) a.l := taken a.l low high
    have next : InTable ((a.l + 1).tmod nQueues) := by
      have signed : 0 ≤ a.l + 1 := by omega
      rw [Int.tmod_eq_emod_of_nonneg signed]
      exact ⟨Int.emod_nonneg _ (by decide), Int.emod_lt_of_pos _ (by decide)⟩
    have away : a.k ≠ (a.l + 1).tmod nQueues := by
      have low := next.1
      omega
    refine ⟨?_, start, ?_, ?_⟩
    · simp only [probe, if_neg busy, if_neg away]
    · simp only [probe, if_neg busy]
      exact (by decide : (-1 : ℤ) ≤ 0).trans next.1
    · simp only [probe, if_neg busy]
      exact next.2

/-- From an address that is not negative, the walk returns what the search does. -/
theorem probe_getQueue {T : Slot → Option ℕ}
    (table : ∀ l : Slot, buffer ((l : ℕ) : ℤ) = (T l).map Nat.cast)
    (returned : (probe buffer n).Returns (.entry n) a) :
    a.outcome = some ((getQueue T n).elim .abort fun l => .slot ((l : ℕ) : ℤ)) := by
  have stops : ∀ l : Slot, Stops buffer n ((l : ℕ) : ℤ) ↔ T l = none ∨ T l = some n := by
    intro l
    rw [Stops, table]
    cases T l with
    | none => simp
    | some m =>
        simp only [Option.map_some, reduceCtorEq, Option.some.injEq, false_or, Int.natCast_inj]
  obtain ⟨visited, exit⟩ := Loop.returns_iff.mp returned
  have walks := walks_of_visits visited
  obtain ⟨outcome, ended⟩ := Option.isSome_iff_exists.mp (Option.isNone_eq_false_iff.mp exit)
  rw [ended]
  cases outcome with
  | slot l =>
      obtain ⟨j, hj, rfl, stop, before⟩ := walks.found l ended
      have looked : getQueue T n = some (walk n j) :=
        Probing.scan_eq_some_iff.mpr ⟨j, hj, rfl, (stops _).mp stop,
          fun i hi => (stops _).not.mp (before i hi)⟩
      rw [looked]
      rfl
  | abort =>
      have looked : getQueue T n = none := by
        apply Option.eq_none_iff_forall_ne_some.mpr
        intro q found
        obtain ⟨j, hj, rfl, stop, -⟩ := Probing.scan_eq_some_iff.mp found
        exact walks.full ended j hj ((stops _).mpr stop)
      rw [looked]
      rfl

end Mftdma.Mpeg
