import Mftdma.Allocator.Rounds

/-!
# Room in the TBTP

`allocation` makes a TBTP of `MAX_SLOTS` descriptors, the most timeslots that one
carrier can have, and the three stages write one for each burst they grant. The
bursts of a round are bounded only by the free slots of the whole superframe, and
a superframe full of small requests uses them all: the TBTP has room for every
load exactly if the superframe has no more than `MAX_SLOTS` slots.
-/

namespace Mftdma.Allocator

open Cyclic Execution

variable {n nf : ℕ}

/-- `MAX_TERM`, `MAX_FRM` and `MAX_RUL` -/
def maxTerm : ℕ := 1100
def maxFrm : ℕ := 256
def maxRul : ℕ := 256

/-- The pass that starts in `a` writes `bdes[t]`. -/
def Assign.Writes (cfg : Config n nf) (a : Assign n nf) (t : ℕ) : Prop :=
  (assignTimeslot cfg).guard a = true ∧ a.bdes.length = t ∧ (a.body cfg).bdes.length = t + 1

/-- With these frames, whatever the terminals, their rules and their requests, every
round writes within the TBTP. -/
def TbtpFits (sf : Fin nf → Frame) : Prop :=
  ∀ (n : ℕ) (cfg : Config n nf), n ≤ maxTerm → (∀ t, (cfg.rules t).length ≤ maxRul) →
    cfg.sf = sf → ∀ (s : AllocatorMFTDMA n nf) (locals : Fin 3 → Locals nf) (a : Assign n nf)
      (t : ℕ), InRound cfg locals s a → a.Writes cfg t → t < maxSlots

section room

variable {cfg : Config n nf} {locals : Fin 3 → Locals nf} {s : AllocatorMFTDMA n nf}
  {a : Assign n nf}

/-- Descriptors and free slots add up to the slots of the superframe. -/
theorem InRound.written (h : InRound cfg locals s a) :
    a.bdes.length + a.freeslots = cfg.slotCount := by
  refine h.invariant (I := fun a => a.bdes.length + a.freeslots = cfg.slotCount)
    (Nat.zero_add _) (fun a ha guard => ?_) (fun _ ha => ha) fun _ ha => ha
  have slots := (guard_iff.mp guard).1
  have pass := a.body_pass cfg
  generalize a.body cfg = b at pass ⊢
  have grant : ∀ left u w, (a.grant cfg left u w).bdes.length + (a.grant cfg left u w).freeslots =
      cfg.slotCount := by
    intro left u w
    simp only [Assign.grant, List.length_append, List.length_singleton]
    omega
  cases pass with
  | exhausted out => exact ha
  | granted r i j => exact grant _ _ _
  | stale stale => exact grant _ _ _
  | refused offset some full => exact ha

end room

section crowd

variable {cfg : Config n nf} {a : Assign n nf} {k : ℕ}

/-- The first `k` terminals have got a burst each; the others wait with a request and
an empty mask. -/
structure Served (cfg : Config n nf) (k : ℕ) (a : Assign n nf) : Prop where
  turn : a.curTerm.val = k
  asks : ∀ j : Fin n, k ≤ j.val → 0 < a.deficit j
  clear : ∀ j : Fin n, k ≤ j.val → ∀ b < cfg.masksize, (a.store.mask j).bit b = false
  written : a.bdes.length = k
  slots : k + a.freeslots = cfg.slotCount
  cells : (a.store.freeCells cfg).card = a.freeslots
  left : a.leftToCheck ≠ 0

/-- Every terminal may use every frame. -/
def Config.Open (cfg : Config n nf) : Prop :=
  ∀ t f, ∃ r ∈ cfg.rules t, r.rule ≠ 1 ∧ r.fp = f

theorem Served.guard (h : Served cfg k a) (room : k < cfg.slotCount) :
    (assignTimeslot cfg).guard a = true := by
  have := h.slots
  exact guard_iff.mpr ⟨by omega, h.left⟩

/-- A terminal with an empty mask can use any free cell. -/
theorem Served.feasible (h : Served cfg k a) (open_ : cfg.Open) (room : k < cfg.slotCount) :
    a.Feasible cfg a.curTerm := by
  have turn := h.turn.ge
  have slots := h.slots
  refine ⟨h.asks _ turn, ?_⟩
  obtain ⟨c, free⟩ := Finset.card_pos.mp (h.cells ▸ by omega : 0 < (a.store.freeCells cfg).card)
  obtain ⟨inside, free⟩ := Store.mem_freeCells.mp free
  obtain ⟨r, mem, any, frame⟩ := open_ a.curTerm c.1
  refine ⟨r, mem, .inl any, (c.2.1, c.2.2), frame ▸ Store.mem_allCells.mp inside, ?_⟩
  rw [frame, Store.avail_iff]
  refine ⟨free, (Mask.testmask_iff _ _ _).mpr fun b _ high => h.clear _ turn b ?_⟩
  have slot := (Frame.mem_cells.mp (Store.mem_allCells.mp inside)).2
  calc
    b < (c.2.2 + 1) * cfg.fieldsize c.1 := high
    _ ≤ (cfg.sf c.1).timeslots * cfg.fieldsize c.1 := Nat.mul_le_mul_right _ slot
    _ = cfg.masksize := cfg.timeslots_mul_fieldsize c.1

/-- So it gets one, and the turn passes on. -/
theorem Served.grants (h : Served cfg k a) (layout : cfg.KnownLayout) (open_ : cfg.Open)
    (room : k < cfg.slotCount) :
    ∃ r i j, a.body cfg = a.grant cfg a.leftToCheck a.curTerm
      ⟨.sf r, cfg.slotOffset r j, a.store.take cfg r a.curTerm i j⟩ ∧
        (⟨r, i, j⟩ : Cell nf) ∈ a.store.freeCells cfg := by
  have picked := Assign.pick_of_pos (h.asks _ h.turn.ge)
  have feasible := h.feasible open_ room
  have pass := a.body_pass cfg
  generalize a.body cfg = b at pass ⊢
  cases pass with
  | exhausted out =>
      rw [picked] at out
      exact absurd out h.left
  | granted r i j some mem eligible cell free =>
      simp only [picked] at free ⊢
      exact ⟨r.fp, i, j, rfl, Store.mem_freeCells.mpr
        ⟨Store.mem_allCells.mpr cell, (Store.avail_iff.mp free).1⟩⟩
  | stale stale =>
      obtain ⟨-, r, mem, eligible, -⟩ := feasible
      have none := stale.2.2
      rw [picked] at none
      exact absurd eligible (none r mem)
  | refused offset some full =>
      have full := full layout
      rw [picked] at full
      exact absurd feasible full

/-- The next terminal is served in turn. -/
theorem Served.body (h : Served cfg k a) (mode : cfg.mode = slotMode) (layout : cfg.KnownLayout)
    (open_ : cfg.Open) (room : k < cfg.slotCount) (more : k + 1 < n) :
    Served cfg (k + 1) (a.body cfg) := by
  obtain ⟨r, i, j, result, free⟩ := h.grants layout open_ room
  have turn := h.turn
  have slots := h.slots
  have other : ∀ u : Fin n, k + 1 ≤ u.val → u ≠ a.curTerm := by
    rintro u later rfl
    omega
  rw [result]
  constructor
  · simp only [Assign.grant, if_pos mode, advance_val, turn, Nat.mod_eq_of_lt more]
  · intro u later
    simp only [Assign.grant, Function.update_of_ne (other u later)]
    exact h.asks u (by omega)
  · intro u later b hb
    simp only [Assign.grant, Store.take_mask_other (other u later)]
    exact h.clear u (by omega) b hb
  · simp only [Assign.grant, List.length_append, List.length_singleton, h.written]
  · simp only [Assign.grant]
    omega
  · simp only [Assign.grant]
    rw [Store.freeCells_take, Finset.card_erase_of_mem free, h.cells]
  · simp only [Assign.grant, if_pos mode]
    omega

/-- One terminal after another is served. -/
theorem Served.visits (h : Served cfg 0 a) (mode : cfg.mode = slotMode)
    (layout : cfg.KnownLayout) (open_ : cfg.Open) (inside : k < n) (room : k ≤ cfg.slotCount) :
    ∃ b, (assignTimeslot cfg).Visits a b ∧ Served cfg k b := by
  induction k with
  | zero => exact ⟨a, .entry, h⟩
  | succ k ih =>
      obtain ⟨b, visit, served⟩ := ih (by omega) (by omega)
      exact ⟨_, .pass visit (served.guard (by omega)),
        served.body mode layout open_ (by omega) inside⟩

/-- A round in which everybody asks for something starts with nobody served. -/
theorem served_enterCra {s : AllocatorMFTDMA n nf} {l : Locals nf} (turn : s.curTerm.val = 0)
    (asks : ∀ i, 0 < s.deficit i + s.cnstRate i) : Served cfg 0 (s.enterCra cfg l) where
  turn := turn
  asks j _ := asks j
  clear j _ b hb := Mask.bit_reset (s.store.mask j) hb
  written := rfl
  slots := Nat.zero_add _
  cells := by
    show ((s.store.reset cfg).freeCells cfg).card = cfg.slotCount
    rw [Store.freeCells_reset, Store.card_allCells]
  left := s.curTerm.pos.ne'

end crowd

/-- The length of a superframe of one second. -/
def second : ℚ := 1

theorem second_nonneg : 0 ≤ second := zero_le_one

/-- These frames with one terminal more than the TBTP has descriptors, each of which may
use all of them. -/
def crowd (sf : Fin nf → Frame) (accepted : ∏ f, (sf f).timeslots ≤ mskLen * 8) :
    Config (maxSlots + 1) nf where
  sf := sf
  rules _ := (List.finRange nf).map fun f => ⟨0, f⟩
  mode := slotMode
  layout := firstFit
  slThreshold := 0
  frameDuration := second
  frameDuration_nonneg := second_nonneg
  masksize_le := accepted

/-- Everybody asks for one byte. -/
def crowdAsks (nf : ℕ) : AllocatorMFTDMA (maxSlots + 1) nf where
  store := { frame := fun _ _ _ => nothingToSend, mask := fun _ _ => 0 }
  deficit _ := 0
  a _ := 0
  freeslots := 0
  leftToCheck := 0
  curTerm := 0
  cnstRate _ := 1
  reqvRate _ := 0
  reqvVolume _ := 0
  utilization := 0
  load := 0

/-- In a larger superframe, as many terminals as there are descriptors and one more get
a burst each, if all of them ask for one byte. -/
theorem not_tbtpFits {sf : Fin nf → Frame} (frames : nf ≤ maxFrm)
    (accepted : ∏ f, (sf f).timeslots ≤ mskLen * 8)
    (large : maxSlots < ∑ f, (sf f).carriers * (sf f).timeslots) : ¬ TbtpFits sf := by
  intro fits
  have open_ : (crowd sf accepted).Open := fun t f =>
    ⟨⟨0, f⟩, by simp [crowd], zero_ne_one, rfl⟩
  have served : Served (crowd sf accepted) 0 ((crowdAsks nf).enterCra (crowd sf accepted)
      ⟨.null, 0⟩) := served_enterCra rfl fun i => by simp [crowdAsks]
  obtain ⟨b, visit, served⟩ := served.visits rfl (.inl rfl) open_ (Nat.lt_succ_self maxSlots)
    large.le
  obtain ⟨r, i, j, result, -⟩ := served.grants (.inl rfl) open_ large
  have writes : b.Writes (crowd sf accepted) maxSlots := by
    refine ⟨served.guard large, served.written, ?_⟩
    rw [result]
    simp [Assign.grant, served.written]
  have inside : maxSlots + 1 ≤ maxTerm := by decide
  have rules : ∀ t, ((crowd sf accepted).rules t).length ≤ maxRul := fun t => by
    show ((List.finRange nf).map _).length ≤ maxRul
    rw [List.length_map, List.length_finRange]
    exact frames
  have below : maxSlots < maxSlots := fits _ (crowd sf accepted) inside rules rfl (crowdAsks nf)
    (fun _ => ⟨.null, 0⟩) b maxSlots (.cra visit) writes
  exact lt_irrefl maxSlots below

/-- The TBTP has room for every load exactly if the superframe has at most `MAX_SLOTS`
slots. -/
theorem tbtpFits_iff (sf : Fin nf → Frame) (frames : nf ≤ maxFrm)
    (accepted : ∏ f, (sf f).timeslots ≤ mskLen * 8) :
    TbtpFits sf ↔ ∑ f, (sf f).carriers * (sf f).timeslots ≤ maxSlots := by
  constructor
  · intro fits
    by_contra large
    exact not_tbtpFits frames accepted (not_le.mp large) fits
  · rintro small n cfg - - rfl s locals a t visited ⟨guard, here, -⟩
    have written := visited.written
    have slots := (guard_iff.mp guard).1
    have count : cfg.slotCount ≤ maxSlots := small
    omega

/-- One carrier with as many timeslots as it can have. -/
theorem tbtpFits_oneCarrier :
    TbtpFits fun _ : Fin 1 => { carriers := 1, timeslots := 256, burstsize := 53 } :=
  (tbtpFits_iff _ (by decide) (by decide)).mpr (by decide)

/-- Two such carriers. -/
theorem twoCarriers_not_fit :
    ¬ TbtpFits fun _ : Fin 1 => { carriers := 2, timeslots := 256, burstsize := 53 } :=
  not_tbtpFits (by decide) (by decide) (by decide)

end Mftdma.Allocator
