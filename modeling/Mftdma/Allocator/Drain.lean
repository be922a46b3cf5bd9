import Mathlib.Algebra.Order.Floor.Div
import Mftdma.Allocator.Conservation
import Mftdma.Allocator.Schedule
import Mftdma.Execution.Potential

/-!
# Requests are served in the end

Each burst of a round goes to a terminal that is still owed something, so it lowers the
number of bursts that the open requests are worth. A round that finds an open request
sends at least one burst. So a history with more rounds than bursts asked for has a round
that finds everybody served: `backlog_drains`. In CONT_MODE every round ends, after at most
`slot_count_ + active_node_` passes of each of its loops.

Within a round no terminal is left out: one that is still owed something at its end has a
burst in the TBTP, or no cell is left in any frame that is open to it.
-/

namespace Mftdma.Allocator

open Cyclic Execution

variable {n nf : ℕ}

/-- Bursts of `b` bytes that a request is worth. -/
def bursts (b : ℕ) (request : ℤ) : ℕ := request.toNat ⌈/⌉ b

/-- What a round is asked to grant to the terminal `i`. -/
def Network.demand (w : Network n nf) (i : Fin n) : ℤ :=
  w.al.deficit i + w.al.cnstRate i + w.al.reqvRate i + w.al.reqvVolume i

/-- Bursts that the deficits and the volumes that wait for a round are worth. -/
def Network.backlog (b : ℕ) (w : Network n nf) : ℕ :=
  ∑ i, bursts b (w.al.deficit i + w.al.reqvVolume i)

/-- Bursts that an event asks for: a request its volume, a round the rates. -/
def asked (b : ℕ) (w : Network n nf) : AllocatorEvent nf → ℕ
  | .rcvReq slotNum _ volume => if slotNum < n then bursts b volume else 0
  | .allocation .. => ∑ i, bursts b (w.al.cnstRate i + w.al.reqvRate i)

/-- Bursts of the TBTP that an event sends. -/
def sent (cfg : Config n nf) (w : Network n nf) (e : AllocatorEvent nf) : ℕ :=
  ((sentTbtp cfg w e).map List.length).sum

/-- A round that starts here finds every request served. -/
def Network.Satisfied (w : Network n nf) : Prop := ∀ i, w.demand i ≤ 0

/-- The passes are as many as a round of CONT_MODE may need. -/
def EnoughPasses (cfg : Config n nf) (e : AllocatorEvent nf) : Prop :=
  ∀ passes locals, e = .allocation passes locals → cfg.slotCount + n ≤ passes

section bursts

variable {b : ℕ} {x y : ℤ}

theorem bursts_le_iff (pos : 0 < b) {k : ℕ} : bursts b x ≤ k ↔ x ≤ b * k := by
  rw [bursts, ceilDiv_le_iff_le_mul pos, Int.toNat_le]
  push_cast
  rfl

theorem le_bursts (pos : 0 < b) (x : ℤ) : x ≤ b * bursts b x := (bursts_le_iff pos).mp le_rfl

theorem bursts_mono (pos : 0 < b) (le : x ≤ y) : bursts b x ≤ bursts b y :=
  (bursts_le_iff pos).mpr (le.trans (le_bursts pos y))

theorem bursts_add_le (pos : 0 < b) (x y : ℤ) : bursts b (x + y) ≤ bursts b x + bursts b y := by
  rw [bursts_le_iff pos, Nat.cast_add, mul_add]
  exact add_le_add (le_bursts pos x) (le_bursts pos y)

/-- A burst of at least `b` bytes is one of those that an open request is worth. -/
theorem bursts_sub_lt (pos : 0 < b) (more : 0 < x) (size : (b : ℤ) ≤ y) :
    bursts b (x - y) < bursts b x := by
  have some : 0 < bursts b x := by
    by_contra none
    have zero := (bursts_le_iff pos).mp (Nat.not_lt.mp none)
    simp only [Nat.cast_zero, mul_zero] at zero
    omega
  obtain ⟨k, hk⟩ := Nat.exists_eq_succ_of_ne_zero some.ne'
  have le := le_bursts pos x
  rw [hk, Nat.lt_succ_iff, bursts_le_iff pos]
  rw [hk, Nat.succ_eq_add_one] at le
  push_cast at le
  linarith

end bursts

section loop

variable {cfg : Config n nf} {a s t : Assign n nf} {b : ℕ} {later : Fin n → ℕ}

/-- Bursts sent so far, and those that the deficits with what comes `later` are worth. -/
def Assign.charge (b : ℕ) (later : Fin n → ℕ) (a : Assign n nf) : ℕ :=
  ∑ i, bursts b (a.deficit i + later i) + a.bdes.length

/-- A pass sends no burst that is not one of those. -/
theorem Assign.charge_body_le (served : cfg.Served) (pos : 0 < b)
    (sizes : ∀ f, b ≤ (cfg.sf f).burstsize) (later : Fin n → ℕ) (a : Assign n nf) :
    (a.body cfg).charge b later ≤ a.charge b later := by
  have positive : a.pick.1 ≠ 0 → 0 < a.deficit a.pick.2 := by
    obtain ⟨_, _, _, _, positive⟩ := a.pick_spec
    exact positive
  have pass := a.body_pass cfg
  generalize a.body cfg = a' at pass ⊢
  cases pass with
  | exhausted out => exact le_rfl
  | stale stale => exact absurd stale (served.not_stale a)
  | refused offset some full => exact le_rfl
  | granted r i j some mem eligible cell free =>
      have fewer : ∑ u, bursts b (Function.update a.deficit a.pick.2
          (a.deficit a.pick.2 - (cfg.sf r.fp).burstsize) u + later u) <
            ∑ u, bursts b (a.deficit u + later u) := by
        apply Finset.sum_lt_sum
        · intro u _
          by_cases own : u = a.pick.2
          · subst own
            rw [Function.update_self]
            exact bursts_mono pos (by omega)
          · rw [Function.update_of_ne own]
        · refine ⟨a.pick.2, Finset.mem_univ _, ?_⟩
          have more := positive some
          have size : (b : ℤ) ≤ (cfg.sf r.fp).burstsize := by exact_mod_cast sizes r.fp
          have less := bursts_sub_lt pos (x := a.deficit a.pick.2 + later a.pick.2)
            (by omega) size
          rw [Function.update_self]
          rwa [add_sub_right_comm] at less
      have length : (a.bdes ++ [(⟨a.pick.2, cfg.slotOffset r.fp j, (cfg.sf r.fp).burstsize⟩ :
          BurstDes n)]).length = a.bdes.length + 1 := List.length_append
      show ∑ u, _ + _ ≤ ∑ u, _ + _
      simp only [Assign.grant, Config.burstsize, length]
      omega

/-- A stage sends no burst that is not one of those. -/
theorem AllocatorMFTDMA.assign_charge {passes : ℕ} {al : AllocatorMFTDMA n nf}
    {bdes : List (BurstDes n)} {l : Locals nf} (served : cfg.Served) (pos : 0 < b)
    (sizes : ∀ f, b ≤ (cfg.sf f).burstsize) (later : Fin n → ℕ)
    (h : al.assign cfg passes bdes l = some t) :
    t.charge b later ≤ (al.enter bdes l.frame l.offset).charge b later := by
  obtain ⟨visited, -⟩ := Loop.returns_iff.mp ⟨passes, h⟩
  apply visited.invariant (I := fun a => a.charge b later ≤
    (al.enter bdes l.frame l.offset).charge b later) le_rfl
  exact fun a _ ha _ => (a.charge_body_le served pos sizes later).trans ha

/-- A loop that has checked all terminals has used up the slots or serves nobody further. -/
theorem Assign.exit_of_returns (knownMode : cfg.KnownMode) (knownLayout : cfg.KnownLayout)
    (all : s.leftToCheck = n) (returned : (assignTimeslot cfg).Returns s t) :
    t.freeslots = 0 ∨ ∀ u, ¬ t.Feasible cfg u := by
  obtain ⟨visited, exit⟩ := Loop.returns_iff.mp returned
  have start : s.Tried cfg s.curTerm 0 := ⟨by simp, by simp [all], by simp [all], by simp⟩
  obtain ⟨c, m, tried⟩ := visited.invariant (I := fun a => ∃ c m, a.Tried cfg c m)
    ⟨_, _, start⟩ fun a _ ⟨_, _, ha⟩ _ => ha.body knownMode knownLayout
  by_cases slots : t.freeslots = 0
  · exact .inl slots
  · right
    intro u
    have out : t.leftToCheck = 0 := by
      by_contra left
      rw [guard_iff.mpr ⟨slots, left⟩] at exit
      cases exit
    have count := tried.count
    obtain ⟨k, inside, rfl⟩ := exists_advance_eq c u
    exact tried.infeasible k (by omega)

end loop

section round

variable {cfg : Config n nf} {a : Assign n nf} {s : AllocatorMFTDMA n nf} {v : Assign n nf}
  {passes b : ℕ} {locals : Fin 3 → Locals nf}

/-- The slots, the descriptors and the masks of a round: a terminal without a descriptor
still has a clear mask. -/
structure Assign.Accounted (cfg : Config n nf) (a : Assign n nf) : Prop where
  slots : a.freeslots = (a.store.freeCells cfg).card
  sent : a.freeslots + a.bdes.length = cfg.slotCount
  clear : ∀ u, (∃ b ∈ a.bdes, b.assignmentId = u) ∨
    ∀ k < cfg.masksize, (a.store.mask u).bit k = false

theorem Assign.Accounted.body (h : a.Accounted cfg) (served : cfg.Served)
    (guard : (assignTimeslot cfg).guard a = true) : (a.body cfg).Accounted cfg := by
  have slots := (guard_iff.mp guard).1
  have pass := a.body_pass cfg
  generalize a.body cfg = a' at pass ⊢
  cases pass with
  | exhausted out => exact ⟨h.slots, h.sent, h.clear⟩
  | stale stale => exact absurd stale (served.not_stale a)
  | refused offset some full => exact ⟨h.slots, h.sent, h.clear⟩
  | granted r i j some mem eligible cell free =>
      have old : (⟨r.fp, i, j⟩ : Cell nf) ∈ a.store.freeCells cfg :=
        Store.mem_freeCells.mpr ⟨Store.mem_allCells.mpr cell, (Store.avail_iff.mp free).1⟩
      refine ⟨?_, ?_, fun u => ?_⟩
      · show a.freeslots - 1 = ((a.store.take cfg r.fp a.pick.2 i j).freeCells cfg).card
        rw [Store.freeCells_take, Finset.card_erase_of_mem old, h.slots]
      · have sent := h.sent
        simp only [Assign.grant, List.length_append, List.length_singleton]
        omega
      · by_cases own : u = a.pick.2
        · left
          exact ⟨_, List.mem_append_right _ (List.mem_singleton.mpr rfl), own.symm⟩
        · obtain ⟨b, old, same⟩ | clear := h.clear u
          · exact .inl ⟨b, List.mem_append_left _ old, same⟩
          · right
            intro k inside
            show ((a.store.take cfg r.fp a.pick.2 i j).mask u).bit k = false
            rw [Store.take_mask_other own]
            exact clear k inside

/-- The accounts of an empty superframe. -/
theorem accounted_enterCra (cfg : Config n nf) (l : Locals nf) (s : AllocatorMFTDMA n nf) :
    (s.enterCra cfg l).Accounted cfg where
  slots := by
    show cfg.slotCount = ((s.store.reset cfg).freeCells cfg).card
    rw [Store.freeCells_reset, Store.card_allCells]
  sent := rfl
  clear _ := .inr fun _ inside => Mask.bit_reset _ inside

/-- The accounts hold at the end of a round. -/
theorem accounted_of_stages (served : cfg.Served) (h : s.stages cfg passes locals = some v) :
    v.Accounted cfg := by
  apply (AllocatorMFTDMA.inRound_of_stages h).invariant (I := fun a => a.Accounted cfg)
  · exact accounted_enterCra cfg (locals 0) s
  · exact fun a ha guard => ha.body served guard
  · exact fun a ha => ⟨ha.slots, ha.sent, ha.clear⟩
  · exact fun a ha => ⟨ha.slots, ha.sent, ha.clear⟩

/-- A free cell fits into a clear mask. -/
theorem usable_of_clear {store : Store n nf} {c : Cell nf} {u : Fin n} (hc : c ∈ cfg.allCells)
    (free : store.cell c = nothingToSend)
    (clear : ∀ k < cfg.masksize, (store.mask u).bit k = false) : store.Usable cfg c.1 u := by
  refine ⟨(c.2.1, c.2.2), Store.mem_allCells.mp hc, Store.avail_iff.mpr ⟨free, ?_⟩⟩
  rw [Mask.testmask_iff]
  intro k _ high
  apply clear
  have slot := (Frame.mem_cells.mp (Store.mem_allCells.mp hc)).2
  calc k < (c.2.2 + 1) * cfg.fieldsize c.1 := high
    _ ≤ (cfg.sf c.1).timeslots * cfg.fieldsize c.1 := Nat.mul_le_mul_right _ slot
    _ = cfg.masksize := cfg.timeslots_mul_fieldsize c.1

/-- A terminal has got a burst, or all cells of the frames open to it are taken. -/
def Assign.Reached (cfg : Config n nf) (v : Assign n nf) (u : Fin n) : Prop :=
  (∃ b ∈ v.bdes, b.assignmentId = u) ∨ ∀ r ∈ cfg.rules u, cfg.Eligible (v.deficit u) r →
    ∀ c ∈ cfg.allCells, c.1 = r.fp → v.store.cell c ≠ nothingToSend

theorem reached_of_stages (served : cfg.Served) (knownMode : cfg.KnownMode)
    (knownLayout : cfg.KnownLayout) (h : s.stages cfg passes locals = some v) {u : Fin n}
    (more : 0 < v.deficit u) : v.Reached cfg u := by
  have accounted := accounted_of_stages served h
  obtain ⟨b, mem, own⟩ | clear := accounted.clear u
  · exact .inl ⟨b, mem, own⟩
  · right
    intro r mem eligible c hc same free
    obtain ⟨cra, -, h⟩ := Option.bind_eq_some_iff.mp h
    obtain ⟨rbdc, -, hvbdc⟩ := Option.bind_eq_some_iff.mp h
    obtain none | satisfied := Assign.exit_of_returns knownMode knownLayout
      (s := rbdc.enterVbdc (locals 2)) rfl ⟨passes, hvbdc⟩
    · have slots := accounted.slots
      rw [none, eq_comm, Finset.card_eq_zero] at slots
      exact Finset.notMem_empty c (slots ▸ Store.mem_freeCells.mpr ⟨hc, free⟩)
    · exact satisfied u ⟨more, r, mem, eligible, same ▸ usable_of_clear hc free clear⟩

/-- The bursts of a round are among those that its demand is worth. -/
theorem stages_charge (served : cfg.Served) (pos : 0 < b)
    (sizes : ∀ f, b ≤ (cfg.sf f).burstsize) (h : s.stages cfg passes locals = some v) :
    ∑ i, bursts b (v.deficit i) + v.bdes.length ≤ ∑ i, bursts b
      (s.deficit i + s.cnstRate i + s.reqvRate i + s.reqvVolume i) := by
  obtain ⟨cra, hcra, h⟩ := Option.bind_eq_some_iff.mp h
  obtain ⟨rbdc, hrbdc, hvbdc⟩ := Option.bind_eq_some_iff.mp h
  obtain ⟨-, rate, volume⟩ := (AllocatorMFTDMA.assign_booked hcra).rates
  obtain ⟨-, -, volume'⟩ := (AllocatorMFTDMA.assign_booked hrbdc).rates
  have first := AllocatorMFTDMA.assign_charge served pos sizes
    (fun i => s.reqvRate i + s.reqvVolume i) hcra
  have second := AllocatorMFTDMA.assign_charge served pos sizes s.reqvVolume hrbdc
  have third := AllocatorMFTDMA.assign_charge served pos sizes (fun _ => 0) hvbdc
  simp only [AllocatorMFTDMA.enter, AllocatorMFTDMA.initRequestQueues,
    AllocatorMFTDMA.resetAllocator] at rate volume volume'
  simp only [Assign.charge, AllocatorMFTDMA.enter, AllocatorMFTDMA.initRequestQueues,
    AllocatorMFTDMA.clearVolume, AllocatorMFTDMA.resetAllocator, rate, volume, volume',
    List.length_nil, Nat.cast_add, ← add_assoc, Nat.cast_zero, add_zero] at first second third
  exact third.trans (second.trans first)

/-- A round with an open request sends a burst. -/
theorem bdes_ne_nil_of_stages (served : cfg.Served) (knownMode : cfg.KnownMode)
    (knownLayout : cfg.KnownLayout) (h : s.stages cfg passes locals = some v) {u : Fin n}
    (more : 0 < s.deficit u + s.cnstRate u + s.reqvRate u + s.reqvVolume u) : v.bdes ≠ [] := by
  intro none
  have accounted := accounted_of_stages served h
  have left : 0 < v.deficit u := by
    rw [(AllocatorMFTDMA.stages_spec h).1 u, none, granted_nil, sub_zero]
    exact more
  obtain ⟨b, mem, -⟩ | full := reached_of_stages served knownMode knownLayout h left
  · rw [none] at mem
    cases mem
  · obtain ⟨r, mem, large⟩ := served u
    have first : (⟨r.fp, 0, 0⟩ : Cell nf) ∈ cfg.allCells :=
      Store.mem_allCells.mpr (Frame.mem_cells.mpr
        ⟨(cfg.sf r.fp).carriers_pos, (cfg.sf r.fp).timeslots_pos⟩)
    have all : v.store.freeCells cfg = cfg.allCells := by
      have slots := accounted.slots
      have sent := accounted.sent
      rw [none, List.length_nil, add_zero, slots, ← Store.card_allCells] at sent
      exact Finset.eq_of_subset_of_card_le (Finset.filter_subset _ _) sent.ge
    exact full r mem (.inl large) _ first rfl (Store.mem_freeCells.mp (all ▸ first)).2

end round

section passes

variable {cfg : Config n nf} {a : Assign n nf} {s : AllocatorMFTDMA n nf} {passes : ℕ}

/-- In CONT_MODE each pass uses up a slot or part of `left_to_check`. -/
theorem Assign.rank_body_cont (cont : cfg.mode = contMode)
    (guard : (assignTimeslot cfg).guard a = true) :
    (a.body cfg).freeslots ≤ a.freeslots ∧
      (a.body cfg).freeslots + (a.body cfg).leftToCheck < a.freeslots + a.leftToCheck := by
  obtain ⟨slots, left⟩ := guard_iff.mp guard
  have notSlot : cfg.mode ≠ slotMode := fun slot => slotMode_ne_contMode (slot.symm.trans cont)
  obtain ⟨m, -, picked, -, -⟩ := a.pick_spec
  have first : a.pick.1 ≤ a.leftToCheck := by
    rw [picked]
    exact Nat.sub_le _ _
  have pass := a.body_pass cfg
  generalize a.body cfg = a' at pass ⊢
  cases pass with
  | exhausted out => exact ⟨le_rfl, by simp only; omega⟩
  | granted r i j some mem eligible cell free =>
      simp only [Assign.grant, if_neg notSlot]
      omega
  | stale stale =>
      simp only [Assign.grant, if_neg notSlot]
      omega
  | refused offset some full =>
      simp only [Assign.refuse, if_pos cont]
      omega

/-- A stage of CONT_MODE ends within a pass for each slot and each terminal. -/
theorem AllocatorMFTDMA.exists_assign (cont : cfg.mode = contMode) (bdes : List (BurstDes n))
    (l : Locals nf) (all : s.leftToCheck = n) (enough : s.freeslots + n ≤ passes) :
    ∃ t, s.assign cfg passes bdes l = some t ∧ t.freeslots ≤ s.freeslots := by
  obtain ⟨t, ht⟩ := Loop.exists_exec_of_rank (l := assignTimeslot cfg) (I := fun _ => True)
    (fun a => a.freeslots + a.leftToCheck) (s := s.enter bdes l.frame l.offset) trivial
    (fun _ _ _ => trivial) fun a _ guard => (a.rank_body_cont cont guard).2
  obtain ⟨visited, -⟩ := Loop.returns_iff.mp ⟨_, ht⟩
  refine ⟨t, Loop.exec_of_le ht ?_, ?_⟩
  · show s.freeslots + s.leftToCheck ≤ passes
    rwa [all]
  · exact visited.invariant (I := fun a => a.freeslots ≤ s.freeslots) le_rfl
      fun a _ ha guard => (a.rank_body_cont cont guard).1.trans ha

/-- A round of CONT_MODE ends. -/
theorem AllocatorMFTDMA.stages_returns (cont : cfg.mode = contMode)
    (enough : cfg.slotCount + n ≤ passes) (locals : Fin 3 → Locals nf) (s : AllocatorMFTDMA n nf) :
    ∃ v, s.stages cfg passes locals = some v := by
  obtain ⟨cra, hcra, left⟩ := exists_assign cont [] (locals 0)
    (s := (s.resetAllocator cfg).initRequestQueues s.cnstRate) rfl enough
  have slots : cra.freeslots ≤ cfg.slotCount := left
  obtain ⟨rbdc, hrbdc, left'⟩ := exists_assign cont cra.bdes (locals 1)
    (s := cra.initRequestQueues cra.reqvRate) rfl ((Nat.add_le_add_right slots n).trans enough)
  have slots' : rbdc.freeslots ≤ cfg.slotCount := left'.trans slots
  obtain ⟨v, hv, -⟩ := exists_assign cont rbdc.bdes (locals 2)
    (s := (rbdc.initRequestQueues rbdc.reqvVolume).clearVolume) rfl
    ((Nat.add_le_add_right slots' n).trans enough)
  refine ⟨v, Option.bind_eq_some_iff.mpr ⟨cra, hcra, ?_⟩⟩
  exact Option.bind_eq_some_iff.mpr ⟨rbdc, hrbdc, hv⟩

end passes

section history

variable {cfg : Config n nf} {op : Operation n} {w w' : Network n nf} {e : AllocatorEvent nf}
  {b : ℕ}

/-- The deficits that a round leaves are capped. -/
theorem bursts_finish_le (pos : 0 < b) (op : Operation n) (w : Network n nf) (v : Assign n nf)
    (i : Fin n) : bursts b ((w.finish op v).al.deficit i) ≤ bursts b (v.deficit i) := by
  have left : (w.finish op v).al.deficit i ≤ max (v.deficit i) 0 := by
    simp only [Network.finish, AllocatorMFTDMA.forget, AllocatorMFTDMA.cap, AllocatorMFTDMA.report]
    split_ifs <;> simp only <;> split_ifs <;> omega
  rw [bursts_le_iff pos]
  exact left.trans (max_le (le_bursts pos _) (by positivity))

theorem sent_of_stages {passes : ℕ} {locals : Fin 3 → Locals nf} {v : Assign n nf}
    (stages : w.al.stages cfg passes locals = some v) :
    sent cfg w (.allocation passes locals) = v.bdes.length := by
  simp [sent, sentTbtp, stages]

/-- What the bursts of an event are paid with. -/
theorem networkStep_backlog (served : cfg.Served) (pos : 0 < b)
    (sizes : ∀ f, b ≤ (cfg.sf f).burstsize) (step : networkStep cfg op w e = some w') :
    w'.backlog b + sent cfg w e ≤ w.backlog b + asked b w e := by
  cases e with
  | rcvReq slotNum rate volume =>
      cases step
      simp only [Network.backlog, AllocatorMFTDMA.rcvReq, sent, sentTbtp, asked, List.map_nil,
        List.sum_nil, add_zero]
      split_ifs with known
      · calc ∑ i, bursts b (w.al.deficit i +
              ((if i.val = slotNum then w.al.reqvVolume i + volume else w.al.reqvVolume i : ℕ) : ℤ))
            ≤ ∑ i, (bursts b (w.al.deficit i + w.al.reqvVolume i) +
                if i = ⟨slotNum, known⟩ then bursts b volume else 0) := by
              apply Finset.sum_le_sum
              intro i _
              by_cases own : i.val = slotNum
              · rw [if_pos own, if_pos (Fin.ext own), Nat.cast_add, ← add_assoc]
                exact bursts_add_le pos _ _
              · rw [if_neg own, if_neg fun same => own (congrArg Fin.val same)]
                exact Nat.le_add_right _ _
          _ = ∑ i, bursts b (w.al.deficit i + w.al.reqvVolume i) + bursts b volume := by
              rw [Finset.sum_add_distrib, Finset.sum_ite_eq' Finset.univ]
              simp
      · refine (Finset.sum_congr rfl fun i _ => ?_).le
        have other : i.val ≠ slotNum := fun own => known (own ▸ i.isLt)
        rw [if_neg other]
  | allocation passes locals =>
      obtain ⟨v, stages, rfl⟩ := Option.map_eq_some_iff.mp step
      have charge := stages_charge served pos sizes stages
      have volume : ∀ i, (w.finish op v).al.reqvVolume i = 0 :=
        fun i => networkStep_volume step i
      have tbtp := sent_of_stages stages
      have left : (w.finish op v).backlog b ≤ ∑ i, bursts b (v.deficit i) := by
        apply Finset.sum_le_sum
        intro i _
        rw [volume, Nat.cast_zero, add_zero]
        exact bursts_finish_le pos op w v i
      have split : ∑ i, bursts b
          (w.al.deficit i + w.al.cnstRate i + w.al.reqvRate i + w.al.reqvVolume i) ≤
            w.backlog b + asked b w (.allocation passes locals) := by
        simp only [Network.backlog, asked, ← Finset.sum_add_distrib]
        apply Finset.sum_le_sum
        intro i _
        refine le_trans (le_of_eq ?_) (bursts_add_le pos _ _)
        congr 1
        ring
      omega

theorem sent_pos (served : cfg.Served) (knownMode : cfg.KnownMode) (knownLayout : cfg.KnownLayout)
    (step : networkStep cfg op w e = some w') (round : e.isRound = true) (more : ¬ w.Satisfied) :
    1 ≤ sent cfg w e := by
  cases e with
  | rcvReq slotNum rate volume => cases round
  | allocation passes locals =>
      obtain ⟨v, stages, -⟩ := Option.map_eq_some_iff.mp step
      obtain ⟨u, some⟩ := not_forall.mp more
      have filled := bdes_ne_nil_of_stages served knownMode knownLayout stages (not_le.mp some)
      rw [sent_of_stages stages]
      exact List.length_pos_of_ne_nil filled

/-- A terminal that a round leaves with an open request has got a burst in it, or no cell
is free any more in the frames that its rules open to it. -/
theorem nobody_left_out (cfg : Config n nf) (served : cfg.Served) (knownMode : cfg.KnownMode)
    (knownLayout : cfg.KnownLayout) (s : AllocatorMFTDMA n nf) (passes : ℕ)
    (locals : Fin 3 → Locals nf) (v : Assign n nf) (stages : s.stages cfg passes locals = some v)
    (u : Fin n) (more : 0 < v.deficit u) : v.Reached cfg u :=
  reached_of_stages served knownMode knownLayout stages more

/-- Terminal 1 asks for more bytes than there are slots, and is left with an open request. -/
theorem nobody_left_out_attached : ∃ v, (attached.al.rcvReq fourSlots 1 0 100).stages fourSlots 9
    (fun _ => ⟨.null, 0⟩) = some v ∧ v.Reached fourSlots 1 := by
  have left : ((attached.al.rcvReq fourSlots 1 0 100).stages fourSlots 9
      fun _ => ⟨.null, 0⟩).any (fun v => 0 < v.deficit 1) = true := by
    decide +kernel
  obtain ⟨v, stages, more⟩ := (Option.any_eq_true _ _).mp left
  have served : fourSlots.Served := fun _ => ⟨.any, List.mem_singleton.mpr rfl, by decide⟩
  exact ⟨v, stages, nobody_left_out fourSlots served (.inr rfl) (.inl rfl) _ 9 _ v stages 1
    (of_decide_eq_true more)⟩

/-- Every history of CONT_MODE goes on to its end, no history sends more bursts than were
asked for, and one that has more rounds than that has a round that finds all requests
served. -/
theorem backlog_drains (cfg : Config n nf) (served : cfg.Served) (knownMode : cfg.KnownMode)
    (knownLayout : cfg.KnownLayout) {b : ℕ} (pos : 0 < b)
    (sizes : ∀ f, b ≤ (cfg.sf f).burstsize) (op : Operation n) (s : Network n nf)
    (es : List (AllocatorEvent nf)) :
    (cfg.mode = contMode → (∀ e ∈ es, EnoughPasses cfg e) →
      ∃ t, run (networkStep cfg op) s es = some t) ∧
    ∀ t, run (networkStep cfg op) s es = some t →
      t.backlog b + tally (networkStep cfg op) (sent cfg) s es ≤
        s.backlog b + tally (networkStep cfg op) (asked b) s es ∧
      (s.backlog b + tally (networkStep cfg op) (asked b) s es <
          es.countP AllocatorEvent.isRound →
        ∃ xs e ys m, es = xs ++ e :: ys ∧ e.isRound = true ∧
          run (networkStep cfg op) s xs = some m ∧ m.Satisfied) := by
  have paid : ∀ w e w', networkStep cfg op w e = some w' →
      w'.backlog b + sent cfg w e ≤ w.backlog b + asked b w e :=
    fun w e w' step => networkStep_backlog served pos sizes step
  refine ⟨fun cont enough => ?_, fun t reach => ⟨run_potential paid reach, fun many => ?_⟩⟩
  · have enabled : Along (networkStep cfg op) (fun w e => (networkStep cfg op w e).isSome = true)
        s es := by
      apply along_of_forall
      intro e mem w
      cases e with
      | rcvReq slotNum rate volume => rfl
      | allocation passes locals =>
          obtain ⟨v, stages⟩ := w.al.stages_returns cont (enough _ mem passes locals rfl) locals
          simp [networkStep, stages]
    exact Option.isSome_iff_exists.mp
      ((run_isSome_iff_along (fun _ _ => Iff.rfl) s es).mpr enabled)
  · refine exists_idle paid ?_ reach many
    exact fun w e w' step round more => sent_pos served knownMode knownLayout step round more

/-- The same network without a constant rate. -/
def quiet : Network 2 1 := { attached with al := { attached.al with cnstRate := fun _ => 0 } }

/-- 25 bytes are three bursts, so one of four rounds finds them granted. -/
theorem backlog_drains_quiet : ∃ xs e ys m,
    [.rcvReq 1 0 25, .allocation 9 fun _ => ⟨.null, 0⟩, .allocation 9 fun _ => ⟨.null, 0⟩,
      .allocation 9 fun _ => ⟨.null, 0⟩, .allocation 9 fun _ => ⟨.null, 0⟩] =
      xs ++ e :: ys ∧ e.isRound = true ∧
        run (networkStep fourSlots oneHub) quiet xs = some m ∧ m.Satisfied := by
  have served : fourSlots.Served := fun _ => ⟨.any, List.mem_singleton.mpr rfl, by decide⟩
  obtain ⟨returns, drained⟩ := backlog_drains fourSlots served (.inr rfl) (.inl rfl)
    (b := 10) (by decide) (by decide) oneHub quiet
    [.rcvReq 1 0 25, .allocation 9 fun _ => ⟨.null, 0⟩, .allocation 9 fun _ => ⟨.null, 0⟩,
      .allocation 9 fun _ => ⟨.null, 0⟩, .allocation 9 fun _ => ⟨.null, 0⟩]
  obtain ⟨t, reach⟩ := returns rfl (by
    simp only [List.forall_mem_cons, EnoughPasses]
    refine ⟨by simp, ?_, ?_, ?_, ?_, by simp⟩ <;>
      · rintro passes locals same
        obtain ⟨rfl, -⟩ := AllocatorEvent.allocation.inj same
        decide)
  exact (drained t reach).2 (by decide +kernel)

end history

end Mftdma.Allocator
