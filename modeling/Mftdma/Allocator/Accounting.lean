import Mathlib.Data.Rat.Floor
import Mftdma.Allocator.Assign
import Mftdma.Execution.Run

/-!
# Requests, grants and the bursts they become

`rcv_req` records the requests of the terminals and `allocation` turns them into
a superframe in three stages that share one TBTP: constant rates, requested
rates and requested volumes. Every terminal then decodes the TBTP into bursts of
its own. The accounts of a round balance: what a terminal asked for and did not
get is its deficit, the grant array and the TBTP name the same bytes, and a
volume received between two rounds is part of the second one only.
-/

namespace Mftdma.Allocator

open Execution

variable {n nf : ℕ}

/-- Variables bound in Tcl that only `allocation` and `btp_decoding` use. -/
structure Operation (n : ℕ) where
  hub : ℤ
  tolerance : ℚ
  maxReqBuf : ℤ
  forgetDebit : ℤ
  slotPacketLen : Fin n → ℤ

/-- What the two uninitialised locals of one call of `assign_timeslot` contain. -/
structure Locals (nf : ℕ) where
  frame : FramePtr nf
  offset : ℚ

/-- A burst as `btp_decoding` hands it to the scheduler. -/
structure Burst where
  size : ℤ
  cellno : ℤ
  offset : ℚ
deriving DecidableEq

/-- `MacTdmaDama::btp_decoding` of the terminal `slotNum`, for descriptors that the packet of
the TBTP has room for: no more than `MAX_SLOTS`. -/
def btpDecoding (slotNum : Fin n) (slotPacketLen : ℤ) (bdes : List (BurstDes n)) : List Burst :=
  bdes.filterMap fun b =>
    if b.assignmentId = slotNum then
      some { size := b.size, cellno := b.size.tdiv slotPacketLen, offset := b.offset }
    else none

/-- `requestv_`, which the constructor clears and nothing writes. -/
def requestv (_ : Fin n) : ℚ := 0

namespace AllocatorMFTDMA

/-- `init`, once the MAC has told the number of terminals. -/
def init (s : AllocatorMFTDMA n nf) : AllocatorMFTDMA n nf := { s with deficit := fun _ => 0 }

/-- `rcv_req`. The arrays are longer than the number of active terminals, which
are the only ones that `allocation` looks at. -/
def rcvReq (cfg : Config n nf) (s : AllocatorMFTDMA n nf) (slotNum rate volume : ℕ) :
    AllocatorMFTDMA n nf :=
  { s with
    reqvRate := fun i =>
      if i.val = slotNum then ⌊(rate : ℚ) * cfg.frameDuration * 125⌋₊ else s.reqvRate i
    reqvVolume := fun i =>
      if i.val = slotNum then s.reqvVolume i + volume else s.reqvVolume i }

/-- `reset_allocator` -/
def resetAllocator (cfg : Config n nf) (s : AllocatorMFTDMA n nf) : AllocatorMFTDMA n nf :=
  { s with
    a := fun _ => 0
    store := s.store.reset cfg
    utilization := 0
    load := 0
    freeslots := cfg.slotCount }

/-- `for(i=0; i<active_node_; i++) reqv_volume[i] = 0.0;` -/
def clearVolume (s : AllocatorMFTDMA n nf) : AllocatorMFTDMA n nf :=
  { s with reqvVolume := fun _ => 0 }

/-- `assign_timeslot`, if `passes` of its loop are enough. -/
def assign (cfg : Config n nf) (passes : ℕ) (s : AllocatorMFTDMA n nf)
    (bdes : List (BurstDes n)) (l : Locals nf) : Option (Assign n nf) :=
  (assignTimeslot cfg).exec passes (s.enter bdes l.frame l.offset)

/-- `allocation` up to the end of its third stage. -/
def stages (cfg : Config n nf) (passes : ℕ) (locals : Fin 3 → Locals nf)
    (s : AllocatorMFTDMA n nf) : Option (Assign n nf) := do
  let s := s.resetAllocator cfg
  let cra ← (s.initRequestQueues s.cnstRate).assign cfg passes [] (locals 0)
  let rbdc ← (cra.initRequestQueues cra.reqvRate).assign cfg passes cra.bdes (locals 1)
  (rbdc.initRequestQueues rbdc.reqvVolume).clearVolume.assign cfg passes rbdc.bdes (locals 2)

/-- The terminals that `allocator_report` looks at. -/
def reported (op : Operation n) : Finset (Fin n) := Finset.univ.filter fun i => op.hub ≠ i

/-- `feedback_` as `allocator_report` leaves it. -/
def feedback (op : Operation n) (s : AllocatorMFTDMA n nf) : ℤ :=
  if (n : ℤ) - 1 ≤ ((reported op).filter fun i => s.deficit i ≤ 0).card then 1 else 0

/-- `utility_` as `allocator_report` leaves it. -/
def utility (op : Operation n) (s : AllocatorMFTDMA n nf) : ℕ :=
  ((reported op).filter fun i =>
    s.deficit i ≤ 0 ∨ op.tolerance * (s.deficit i + requestv i) ≤ s.a i).card

/-- The part of `allocator_report` that works on `utilization_`. -/
def report (op : Operation n) (s : AllocatorMFTDMA n nf) : AllocatorMFTDMA n nf :=
  { s with
    utilization := s.utilization
      - ∑ i ∈ (reported op).filter (fun i => 0 < s.deficit i), s.deficit i + s.load }

/-- Requests beyond `max_req_buf_` are not carried forward. -/
def cap (op : Operation n) (s : AllocatorMFTDMA n nf) : AllocatorMFTDMA n nf :=
  { s with deficit := fun i => if op.maxReqBuf < s.deficit i then op.maxReqBuf else s.deficit i }

/-- `forget_debit_` removes the negative deficits. -/
def forget (op : Operation n) (s : AllocatorMFTDMA n nf) : AllocatorMFTDMA n nf :=
  if op.forgetDebit = 1 then
    { s with deficit := fun i => if s.deficit i < 0 then 0 else s.deficit i }
  else s

end AllocatorMFTDMA

/-- The allocator and, for each terminal, the bursts scheduled on its MAC. -/
structure Network (n nf : ℕ) where
  al : AllocatorMFTDMA n nf
  sched : Fin n → List Burst
  feedback : ℤ
  utility : ℕ

/-- `passes` bounds the loop of each stage and `locals` is what the three calls
find in their locals; a stage that needs more passes does not return. -/
inductive AllocatorEvent (nf : ℕ) where
  | rcvReq (slotNum rate volume : ℕ)
  | allocation (passes : ℕ) (locals : Fin 3 → Locals nf)

/-- The rest of `allocation` after the third stage `v`, and the decoding of its
TBTP by every terminal. -/
def Network.finish (op : Operation n) (w : Network n nf) (v : Assign n nf) : Network n nf where
  al := ((v.report op).cap op).forget op
  sched i := w.sched i ++ btpDecoding i (op.slotPacketLen i) v.bdes
  feedback := v.feedback op
  utility := v.utility op

def networkStep (cfg : Config n nf) (op : Operation n) (w : Network n nf) :
    AllocatorEvent nf → Option (Network n nf)
  | .rcvReq slotNum rate volume => some { w with al := w.al.rcvReq cfg slotNum rate volume }
  | .allocation passes locals => (w.al.stages cfg passes locals).map (w.finish op)

/-- Bytes that a TBTP grants to the terminal `i`. -/
def granted (i : Fin n) (bdes : List (BurstDes n)) : ℤ :=
  ((bdes.filter fun b => b.assignmentId = i).map BurstDes.size).sum

namespace AllocatorEvent

def isRound : AllocatorEvent nf → Bool
  | rcvReq .. => false
  | allocation .. => true

/-- VBDC volume that an event brings for the terminal `i`. -/
def volume (i : Fin n) : AllocatorEvent nf → ℕ
  | rcvReq slotNum _ volume => if i.val = slotNum then volume else 0
  | allocation .. => 0

end AllocatorEvent

def roundAt (es : List (AllocatorEvent nf)) (r : ℕ) : Bool := es[r]?.any AllocatorEvent.isRound

def volumeAt (es : List (AllocatorEvent nf)) (i : Fin n) (p : ℕ) : ℕ :=
  es[p]?.elim 0 (AllocatorEvent.volume i)

/-- What event `p` brought waits for a round when event `q` takes place. -/
def Waits (es : List (AllocatorEvent nf)) (p q : ℕ) : Prop :=
  ∀ r ∈ Finset.Ico p q, roundAt es r = false

instance (es : List (AllocatorEvent nf)) (p q : ℕ) : Decidable (Waits es p q) :=
  inferInstanceAs (Decidable (∀ r ∈ Finset.Ico p q, roundAt es r = false))

/-- Event `q` is the round that takes in what event `p` brought. -/
def Enters (es : List (AllocatorEvent nf)) (p q : ℕ) : Prop :=
  p < q ∧ Waits es p q ∧ roundAt es q = true

instance (es : List (AllocatorEvent nf)) (p q : ℕ) : Decidable (Enters es p q) :=
  inferInstanceAs (Decidable (_ ∧ _ ∧ _))

/-- The accounts of the round that leads from `w` to `w'`, where `v` is the state
after its third stage. -/
structure RoundAccounts (op : Operation n) (w : Network n nf) (v : Assign n nf)
    (w' : Network n nf) : Prop where
  deficit : ∀ i, v.deficit i =
    w.al.deficit i + w.al.cnstRate i + w.al.reqvRate i + w.al.reqvVolume i - granted i v.bdes
  grants : ∀ i, v.a i = granted i v.bdes
  bursts : ∀ i, ∃ new, w'.sched i = w.sched i ++ new ∧
    new.map (fun b => (b.size, b.offset)) =
      (v.bdes.filter fun b => b.assignmentId = i).map fun b => (b.size, b.offset)

/-- The accounts of a history: each round balances, takes in the volumes that
entered it, and every volume enters the first round after it and no other. -/
structure Accounts (cfg : Config n nf) (op : Operation n) (s : Network n nf)
    (es : List (AllocatorEvent nf)) : Prop where
  round : ∀ q passes locals w, es[q]? = some (.allocation passes locals) →
    run (networkStep cfg op) s (es.take q) = some w →
      ∃ v, w.al.stages cfg passes locals = some v ∧ RoundAccounts op w v (w.finish op v)
  volume : ∀ q w, roundAt es q = true → run (networkStep cfg op) s (es.take q) = some w →
    ∀ i, w.al.reqvVolume i = (if Waits es 0 q then s.al.reqvVolume i else 0) +
      ∑ p ∈ (Finset.range q).filter (Enters es · q), volumeAt es i p
  enters : ∀ p q, p < q → roundAt es p = false → roundAt es q = true → ∃ q' ≤ q, Enters es p q'
  once : ∀ p q q', Enters es p q → Enters es p q' → q = q'

variable {cfg : Config n nf} {op : Operation n} {i : Fin n}

@[simp] theorem granted_nil (i : Fin n) : granted i [] = 0 := rfl

theorem granted_append_singleton (i : Fin n) (bdes : List (BurstDes n)) (b : BurstDes n) :
    granted i (bdes ++ [b]) = granted i bdes + if b.assignmentId = i then b.size else 0 := by
  by_cases own : b.assignmentId = i <;> simp [granted, own]

section stages

/-- What a loop of `assign_timeslot` does to the accounts: each byte granted to a
terminal goes into the TBTP and the grant array and comes off the deficit. -/
structure Assign.Booked (s t : Assign n nf) : Prop where
  deficit : ∀ i, t.deficit i + granted i t.bdes = s.deficit i + granted i s.bdes
  grants : ∀ i, t.a i - granted i t.bdes = s.a i - granted i s.bdes
  rates : t.cnstRate = s.cnstRate ∧ t.reqvRate = s.reqvRate ∧ t.reqvVolume = s.reqvVolume

theorem Assign.Booked.refl (s : Assign n nf) : s.Booked s := ⟨by simp, by simp, by simp⟩

theorem Assign.Booked.trans {s t u : Assign n nf} (first : s.Booked t) (second : t.Booked u) :
    s.Booked u where
  deficit i := (second.deficit i).trans (first.deficit i)
  grants i := (second.grants i).trans (first.grants i)
  rates := by
    obtain ⟨cnst, rate, volume⟩ := second.rates
    rw [cnst, rate, volume]
    exact first.rates

theorem Assign.booked_grant (s : Assign n nf) (left : ℕ) (u : Fin n) (w : Search n nf) :
    s.Booked (s.grant cfg left u w) where
  deficit i := by
    by_cases own : u = i
    · subst own
      simp [Assign.grant, granted_append_singleton]
    · simp [Assign.grant, granted_append_singleton, own, Ne.symm own]
  grants i := by
    by_cases own : u = i
    · subst own
      simp [Assign.grant, granted_append_singleton]
    · simp [Assign.grant, granted_append_singleton, own, Ne.symm own]
  rates := ⟨rfl, rfl, rfl⟩

/-- Each pass of the loop keeps the accounts. -/
theorem Assign.booked_body (cfg : Config n nf) (s : Assign n nf) : s.Booked (s.body cfg) := by
  have pass := s.body_pass cfg
  generalize s.body cfg = t at pass ⊢
  cases pass with
  | exhausted out => exact ⟨fun _ => rfl, fun _ => rfl, rfl, rfl, rfl⟩
  | granted r i j => exact s.booked_grant _ _ _
  | stale stale => exact s.booked_grant _ _ _
  | refused offset some full => exact ⟨fun _ => rfl, fun _ => rfl, rfl, rfl, rfl⟩

/-- A stage that returns has kept them. -/
theorem AllocatorMFTDMA.assign_booked {passes : ℕ} {s : AllocatorMFTDMA n nf}
    {bdes : List (BurstDes n)} {l : Locals nf} {t : Assign n nf}
    (h : s.assign cfg passes bdes l = some t) : (s.enter bdes l.frame l.offset).Booked t := by
  obtain ⟨visited, -⟩ := Loop.returns_iff.mp ⟨passes, h⟩
  apply visited.invariant (I := fun a => Assign.Booked _ a) (.refl _)
  exact fun a _ ha _ => ha.trans (a.booked_body cfg)

/-- The three stages fold the three request vectors into the deficit. -/
theorem AllocatorMFTDMA.stages_spec {passes : ℕ} {locals : Fin 3 → Locals nf}
    {s : AllocatorMFTDMA n nf} {v : Assign n nf} (h : s.stages cfg passes locals = some v) :
    (∀ i, v.deficit i =
      s.deficit i + s.cnstRate i + s.reqvRate i + s.reqvVolume i - granted i v.bdes) ∧
    (∀ i, v.a i = granted i v.bdes) ∧ ∀ i, v.reqvVolume i = 0 := by
  unfold AllocatorMFTDMA.stages at h
  obtain ⟨cra, hcra, h⟩ := Option.bind_eq_some_iff.mp h
  obtain ⟨rbdc, hrbdc, hvbdc⟩ := Option.bind_eq_some_iff.mp h
  have first := assign_booked hcra
  have second := assign_booked hrbdc
  have third := assign_booked hvbdc
  obtain ⟨-, rate₁, volume₁⟩ := first.rates
  obtain ⟨-, -, volume₂⟩ := second.rates
  simp only [enter, initRequestQueues, resetAllocator] at rate₁ volume₁ volume₂
  refine ⟨fun i => ?_, fun i => ?_, fun i => ?_⟩
  · have d₁ := first.deficit i
    have d₂ := second.deficit i
    have d₃ := third.deficit i
    simp only [enter, initRequestQueues, resetAllocator, clearVolume, granted_nil, rate₁, volume₂,
      volume₁] at d₁ d₂ d₃
    omega
  · have g₁ := first.grants i
    have g₂ := second.grants i
    have g₃ := third.grants i
    simp only [enter, initRequestQueues, resetAllocator, clearVolume, granted_nil] at g₁ g₂ g₃
    omega
  · exact congrFun third.rates.2.2 i

end stages

theorem btpDecoding_map (i : Fin n) (slotPacketLen : ℤ) (bdes : List (BurstDes n)) :
    (btpDecoding i slotPacketLen bdes).map (fun b => (b.size, b.offset)) =
      (bdes.filter fun b => b.assignmentId = i).map fun b => (b.size, b.offset) := by
  induction bdes with
  | nil => rfl
  | cons b bdes ih =>
      rw [btpDecoding] at ih ⊢
      by_cases own : b.assignmentId = i
      · simp [own, ih]
      · simp [own, ih]

theorem roundAccounts {passes : ℕ} {locals : Fin 3 → Locals nf} {w : Network n nf}
    {v : Assign n nf} (h : w.al.stages cfg passes locals = some v) :
    RoundAccounts op w v (w.finish op v) where
  deficit := (AllocatorMFTDMA.stages_spec h).1
  grants := (AllocatorMFTDMA.stages_spec h).2.1
  bursts i := ⟨_, rfl, btpDecoding_map i _ _⟩

section volumes

variable {s w w' : Network n nf} {es : List (AllocatorEvent nf)} {p q : ℕ}

/-- Requests add to the pending volume, and a round clears it. -/
theorem networkStep_volume {e : AllocatorEvent nf} (step : networkStep cfg op w e = some w')
    (i : Fin n) : w'.al.reqvVolume i =
      if e.isRound then 0 else w.al.reqvVolume i + e.volume i := by
  cases e with
  | rcvReq slotNum rate volume =>
      cases step
      by_cases own : i.val = slotNum <;>
        simp [AllocatorMFTDMA.rcvReq, AllocatorEvent.isRound, AllocatorEvent.volume, own]
  | allocation passes locals =>
      obtain ⟨v, hv, rfl⟩ := Option.map_eq_some_iff.mp step
      have cleared := (AllocatorMFTDMA.stages_spec hv).2.2 i
      simp only [Network.finish, AllocatorMFTDMA.forget, AllocatorEvent.isRound, if_true]
      split <;> exact cleared

theorem waits_succ (le : p ≤ q) :
    Waits es p (q + 1) ↔ Waits es p q ∧ roundAt es q = false := by
  simp only [Waits, Finset.mem_Ico]
  constructor
  · exact fun h => ⟨fun r hr => h r ⟨hr.1, by omega⟩, h q ⟨le, by omega⟩⟩
  · rintro ⟨before, now⟩ r ⟨low, high⟩
    obtain earlier | rfl := Nat.lt_succ_iff_lt_or_eq.mp high
    · exact before r ⟨low, earlier⟩
    · exact now

/-- What waits at event `q`, out of `carried` at the start and of what came since. -/
def waiting (es : List (AllocatorEvent nf)) (i : Fin n) (carried q : ℕ) : ℕ :=
  (if Waits es 0 q then carried else 0) +
    ∑ p ∈ Finset.range q, if Waits es p q then volumeAt es i p else 0

theorem waiting_succ (es : List (AllocatorEvent nf)) (i : Fin n) (carried q : ℕ) :
    waiting es i carried (q + 1) =
      if roundAt es q then 0 else waiting es i carried q + volumeAt es i q := by
  cases now : roundAt es q with
  | true =>
      have gone : ∀ p ≤ q, ¬ Waits es p (q + 1) := fun p le h => by
        rw [((waits_succ le).mp h).2] at now
        cases now
      rw [waiting, if_neg (gone 0 (Nat.zero_le q)), if_pos rfl]
      refine (Nat.zero_add _).trans (Finset.sum_eq_zero fun p hp => ?_)
      exact if_neg (gone p (Nat.le_of_lt_succ (Finset.mem_range.mp hp)))
  | false =>
      have same : ∀ p ≤ q, Waits es p (q + 1) ↔ Waits es p q := fun p le => by
        rw [waits_succ le, and_iff_left now]
      have last : Waits es q q := by simp [Waits]
      simp only [waiting, Finset.sum_range_succ, same 0 (Nat.zero_le q), same q le_rfl, last]
      rw [Finset.sum_congr rfl fun p hp => if_congr (same p (Finset.mem_range.mp hp).le) rfl rfl]
      simp [Nat.add_assoc]

/-- The pending volume is what waits. -/
theorem reqvVolume_eq (reach : run (networkStep cfg op) s (es.take q) = some w) (i : Fin n) :
    w.al.reqvVolume i = waiting es i (s.al.reqvVolume i) q := by
  induction q generalizing w with
  | zero =>
      rw [List.take_zero] at reach
      obtain rfl := Option.some.inj reach
      simp [waiting, Waits]
  | succ q ih =>
      rw [waiting_succ]
      cases found : es[q]? with
      | none =>
          rw [List.take_add_one, found, Option.toList_none, List.append_nil] at reach
          simp [roundAt, volumeAt, found, ih reach]
      | some e =>
          rw [List.take_add_one, found, Option.toList_some] at reach
          obtain ⟨m, before, step⟩ := run_snoc_eq_some.mp reach
          rw [networkStep_volume step, ih before]
          simp [roundAt, volumeAt, found]

/-- At a round, what waits is what enters it. -/
theorem waiting_eq_enters (es : List (AllocatorEvent nf)) (i : Fin n) (carried : ℕ)
    (round : roundAt es q = true) :
    waiting es i carried q = (if Waits es 0 q then carried else 0) +
      ∑ p ∈ (Finset.range q).filter (Enters es · q), volumeAt es i p := by
  rw [waiting, Finset.sum_filter]
  refine congrArg _ (Finset.sum_congr rfl fun p hp => if_congr ?_ rfl rfl)
  simp [Enters, round, Finset.mem_range.mp hp]

/-- Every event before a round enters one. -/
theorem exists_enters (before : p < q) (request : roundAt es p = false)
    (round : roundAt es q = true) : ∃ q' ≤ q, Enters es p q' := by
  have rounds : ∃ r, p < r ∧ roundAt es r = true := ⟨q, before, round⟩
  obtain ⟨later, first⟩ := Nat.find_spec rounds
  refine ⟨Nat.find rounds, Nat.find_min' rounds ⟨before, round⟩, later, fun r hr => ?_, first⟩
  obtain ⟨low, high⟩ := Finset.mem_Ico.mp hr
  obtain rfl | after := Nat.eq_or_lt_of_le low
  · exact request
  · have quiet := Nat.find_min rounds high
    simpa [after] using quiet

theorem Enters.not_lt {q' : ℕ} (h : Enters es p q) (h' : Enters es p q') : ¬ q < q' := by
  intro early
  have quiet := h'.2.1 q (Finset.mem_Ico.mpr ⟨h.1.le, early⟩)
  rw [h.2.2] at quiet
  cases quiet

end volumes

/-- The accounts of every history balance. -/
theorem allocation_accounts (cfg : Config n nf) (op : Operation n) (s t : Network n nf)
    (es : List (AllocatorEvent nf)) (reach : run (networkStep cfg op) s es = some t) :
    Accounts cfg op s es where
  round q passes locals w found before := by
    obtain ⟨w₀, w', before₀, step, -⟩ := exists_step_of_getElem found reach
    obtain rfl := Option.some.inj (before.symm.trans before₀)
    obtain ⟨v, stages, -⟩ := Option.map_eq_some_iff.mp step
    exact ⟨v, stages, roundAccounts stages⟩
  volume q w round before i := by
    rw [reqvVolume_eq before, waiting_eq_enters es i _ round]
  enters p q := exists_enters
  once p q q' h h' := by
    have := h.not_lt h'
    have := h'.not_lt h
    omega

/-- Two terminals on one carrier of four timeslots. -/
def fourSlots : Config 2 1 := .oneFrame .oneByFour (fun _ => [.any]) contMode firstFit

def oneHub : Operation 2 where
  hub := 0
  tolerance := 1
  maxReqBuf := 1000
  forgetDebit := 0
  slotPacketLen _ := 10

/-- A network in which terminal 0 has a constant rate. -/
def attached : Network 2 1 where
  al := AllocatorMFTDMA.init
    { store := { frame := fun _ _ _ => nothingToSend, mask := fun _ _ => 0 }
      deficit := fun _ => 7
      a := fun _ => 0
      freeslots := 4
      leftToCheck := 2
      curTerm := ⟨0, Nat.two_pos⟩
      cnstRate := ![10, 0]
      reqvRate := fun _ => 0
      reqvVolume := fun _ => 0
      utilization := 0
      load := 0 }
  sched _ := []
  feedback := 0
  utility := 0

/-- A request, a round, two requests and another round. -/
theorem allocation_accounts_attached : Accounts fourSlots oneHub attached
    [.rcvReq 1 0 25, .allocation 9 fun _ => ⟨.null, 0⟩, .rcvReq 1 0 5, .rcvReq 0 0 1,
      .allocation 9 fun _ => ⟨.null, 0⟩] := by
  have returned : (run (networkStep fourSlots oneHub) attached
      [.rcvReq 1 0 25, .allocation 9 fun _ => ⟨.null, 0⟩, .rcvReq 1 0 5, .rcvReq 0 0 1,
        .allocation 9 fun _ => ⟨.null, 0⟩]).isSome = true := by
    decide +kernel
  obtain ⟨t, reach⟩ := Option.isSome_iff_exists.mp returned
  exact allocation_accounts fourSlots oneHub attached t _ reach

end Mftdma.Allocator
