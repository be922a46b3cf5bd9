import Mftdma.Tdma.Slots

/-!
# Delivery of the cells of a burst

`slotHandler` packs the cells that it takes from the queue into the array of a
`FramePDU` and sends the burst to `MAC_BROADCAST`. Each station gets a copy,
which `recv` filters by the destination of the burst and `sendUp` by that of
each cell.

`recv` lets `MAC_BROADCAST` through and `sendUp` does not, although the link
layers give it to a cell for `IP_BROADCAST`. The stations get what is addressed
to them, once and in order, exactly as long as no such cell is sent:
`MacTdmaDama.delivers_iff`.
-/

namespace Mftdma.Tdma

open Allocator Execution Machine

/-- `MAC_BROADCAST` -/
def macBroadcast : ℤ := 2 ^ 32 - 1

/-- What an `u_int32_t` holds after a conversion. -/
def uint32 (x : ℤ) : ℤ := x % 2 ^ 32

variable {n : ℕ} {P : Type}

/-- A `FramePDU`: the array `pks_` ends in at least one `NULL`. -/
structure FramePDU (P : Type) where
  size : ℕ
  pks : List (Option P)

namespace FramePDU

/-- The constructor, which clears the entries of the array and one more. -/
def new (n : ℕ) : FramePDU P := ⟨n, List.replicate (n + 1) none⟩

/-- `pks_[i] = p`, and on from there for the cells that follow. -/
def load (f : FramePDU P) (i : ℕ) : List P → FramePDU P
  | [] => f
  | p :: ps => load { f with pks := f.pks.set i (some p) } (i + 1) ps

/-- What a loop visits that ends at the first `NULL`. -/
def visited : List (Option P) → List P
  | some p :: pks => p :: visited pks
  | _ => []

/-- `copy` -/
def copy (f : FramePDU P) : FramePDU P := (new f.size).load 0 (visited f.pks)

theorem visited_append (ps : List P) (pks : List (Option P)) :
    visited (ps.map some ++ none :: pks) = ps := by
  induction ps with
  | nil => rfl
  | cons p ps ih => exact congrArg (p :: ·) ih

/-- Loading continues what is loaded already, as far as there are entries. -/
theorem load_pks {f : FramePDU P} {loaded ps : List P} {free : ℕ}
    (pks : f.pks = loaded.map some ++ List.replicate (ps.length + free) none) :
    (f.load loaded.length ps).pks =
      (loaded ++ ps).map some ++ List.replicate free none := by
  induction ps generalizing f loaded with
  | nil => simpa [load] using pks
  | cons p ps ih =>
      have set : f.pks.set loaded.length (some p) =
          (loaded ++ [p]).map some ++ List.replicate (ps.length + free) none := by
        rw [pks, List.length_cons, Nat.add_right_comm, List.replicate_succ]
        simp
      have rest := ih (f := { f with pks := f.pks.set loaded.length (some p) }) set
      rw [List.length_append, List.length_singleton, List.append_assoc] at rest
      exact rest

@[simp] theorem load_size (f : FramePDU P) (i : ℕ) (ps : List P) : (f.load i ps).size = f.size := by
  induction ps generalizing f i with
  | nil => rfl
  | cons p ps ih => exact ih ..

/-- An array with room for the cells holds them, in order. -/
theorem visited_load {n : ℕ} {ps : List P} (room : ps.length ≤ n) :
    visited ((new n).load 0 ps).pks = ps := by
  obtain ⟨free, rfl⟩ := Nat.exists_eq_add_of_le room
  have pks : ((new (ps.length + free)).load ([] : List P).length ps).pks =
      ([] ++ ps).map some ++ List.replicate (free + 1) none := load_pks rfl
  show visited ((new (ps.length + free)).load ([] : List P).length ps).pks = ps
  rw [pks, List.replicate_succ]
  exact visited_append ps _

/-- A copy holds the same cells. -/
theorem visited_copy {n : ℕ} {ps : List P} (room : ps.length ≤ n) :
    visited ((new n).load 0 ps).copy.pks = ps := by
  rw [copy, visited_load room, load_size]
  exact visited_load room

end FramePDU

/-- `sendUp` of the station `index`: the cells that it hands to `uptarget_`. -/
def sendUp (macDA : P → ℤ) (index : ℤ) (f : FramePDU P) : List P :=
  (FramePDU.visited f.pks).filter fun c => macDA c = index

/-- `recv` of the station `index`, for a burst to `dst` that comes from the channel. -/
def recv (macDA : P → ℤ) (index dst : ℤ) (f : FramePDU P) : List P :=
  if uint32 dst ≠ uint32 index ∧ uint32 dst ≠ macBroadcast then [] else sendUp macDA index f

/-- The array of a burst that `btp_decoding` has scheduled and `slotHandler` has filled. -/
def framePDU (slotPacketLen : ℤ) (b : ℤ × List P) : FramePDU P :=
  (FramePDU.new (b.1.tdiv slotPacketLen).toNat).load 0 b.2

/-- What the station `index` hands up of the bursts that are sent, a copy of each of
which reaches it with the destination that `slotHandler` sets. -/
def handedUp (macDA : P → ℤ) (slotPacketLen index : ℤ) (air : List (ℤ × List P)) : List P :=
  air.flatMap fun b => recv macDA index (int32 macBroadcast) (framePDU slotPacketLen b).copy

/-- What a link layer means by the destination of a cell: a station, or all of them. -/
def IsAddressed (macDA : P → ℤ) (index : ℤ) (c : P) : Prop :=
  macDA c = index ∨ macDA c = int32 macBroadcast

instance (macDA : P → ℤ) (index : ℤ) : DecidablePred (IsAddressed macDA index) :=
  fun _ => inferInstanceAs (Decidable (_ ∨ _))

/-- A burst to `MAC_BROADCAST` passes the first filter of every station. -/
theorem recv_broadcast (macDA : P → ℤ) (index : ℤ) (f : FramePDU P) :
    recv macDA index (int32 macBroadcast) f = sendUp macDA index f := by
  have passes : uint32 (int32 macBroadcast) = macBroadcast := by decide
  apply if_neg
  rintro ⟨-, other⟩
  exact other passes

/-- A station hands up what the bursts carry to it, if no burst exceeds its slot. -/
theorem handedUp_eq {macDA : P → ℤ} {slotPacketLen index : ℤ} {air : List (ℤ × List P)}
    (pos : 1 ≤ slotPacketLen) (fits : ∀ b ∈ air, b.2.length * slotPacketLen ≤ b.1) :
    handedUp macDA slotPacketLen index air =
      (air.flatMap Prod.snd).filter fun c => macDA c = index := by
  rw [handedUp, List.filter_flatMap]
  apply List.flatMap_congr
  intro b sent
  have quot : (b.2.length : ℤ) ≤ b.1 / slotPacketLen :=
    (Int.le_ediv_iff_mul_le (by omega)).mpr (fits b sent)
  have nonneg : 0 ≤ b.1 := le_trans (by positivity) (fits b sent)
  have room : b.2.length ≤ (b.1.tdiv slotPacketLen).toNat := by
    rw [Int.tdiv_eq_ediv_of_nonneg nonneg]
    omega
  rw [recv_broadcast, sendUp, framePDU, FramePDU.visited_copy room]

namespace MacTdmaDama

/-- The cells that a slot with room for `cn` takes from the queue `q`: it ends early at a
control packet, which `recv` sends on. -/
def cells (control : P → Bool) (cn : ℕ) (q : List P) : List P :=
  (q.take cn).takeWhile fun p => !control p

/-- The cells that `slotHandler` takes from the queue at an event. -/
def takes (control : P → Bool) (s : MacTdmaDama P) : MacEvent n P → List P
  | .slot k => (s.scheduled[k]?).elim [] fun b => cells control b.cellno.toNat s.queue
  | _ => []

/-- No cell that the slot takes is for `IP_BROADCAST`. -/
def NoBroadcast (control : P → Bool) (macDA : P → ℤ) (s : MacTdmaDama P) (e : MacEvent n P) :
    Prop :=
  ∀ c ∈ s.takes control e, macDA c ≠ int32 macBroadcast

instance (control : P → Bool) (macDA : P → ℤ) (s : MacTdmaDama P) (e : MacEvent n P) :
    Decidable (NoBroadcast control macDA s e) :=
  inferInstanceAs (Decidable (∀ c ∈ _, _))

/-- Each station hands up what is addressed to it of the cells taken, in order. -/
def Delivers (macDA : P → ℤ) (slotPacketLen : ℤ) (stations : Set ℕ) (taken : List P)
    (air : List (ℤ × List P)) : Prop :=
  ∀ index ∈ stations,
    handedUp macDA slotPacketLen index air = taken.filter fun c => IsAddressed macDA index c

variable {deque : List P → Option (P × List P)} {control : P → Bool} {slotNum : Fin n}
  {slotPacketLen : ℤ} {s t : MacTdmaDama P} {cn : ℕ}

/-- The loop takes the cells at the head of the queue, in order, leaves the others there
and the buffer empty. -/
theorem fill_cells (first : PassesFirst deque) (control : P → Bool) (slotPacketLen : ℤ) (cn : ℕ)
    (empty : s.pktTx = none) :
    (s.fill deque control slotPacketLen cn).2 = cells control cn s.queue ∧
      (s.fill deque control slotPacketLen cn).1.pktTx = none ∧
      s.queue.filter (fun p => !control p) = cells control cn s.queue ++
        (s.fill deque control slotPacketLen cn).1.queue.filter fun p => !control p := by
  induction cn generalizing s with
  | zero => exact ⟨rfl, empty, rfl⟩
  | succ cn ih =>
      rw [fill, resume, cells, first]
      cases queue : s.queue with
      | nil => simp [queue, empty]
      | cons p q =>
          by_cases ctl : control p
          · simp [ctl, empty]
          · obtain ⟨taken, buffer, left⟩ := ih (s := { s with
              queue := q
              pktTx := none
              slots.used := int32 (s.slots.used + slotPacketLen) }) rfl
            simpa [ctl, taken, buffer, cells] using left

/-- A slot sends the cells that it takes. -/
theorem slotHandler_air (first : PassesFirst deque) (control : P → Bool) (slotPacketLen : ℤ)
    (b : Burst) (empty : s.pktTx = none) :
    (s.slotHandler deque control slotPacketLen b).pktTx = none ∧
      (s.slotHandler deque control slotPacketLen b).air.flatMap Prod.snd =
        s.air.flatMap Prod.snd ++ cells control b.cellno.toNat s.queue := by
  let entered := { s with slots.total := int32 (s.slots.total + b.size) }
  obtain ⟨taken, buffer, -⟩ := fill_cells first control slotPacketLen b.cellno.toNat
    (s := entered) empty
  obtain ⟨-, -, air, -⟩ := fill_frame deque control slotPacketLen b.cellno.toNat entered
  rw [slotHandler]
  split_ifs with none
  · exact ⟨buffer, by rw [← taken, none, List.append_nil, air]⟩
  · exact ⟨buffer, by simp [air, taken, entered]⟩

/-- A step sends the cells that its slot takes. -/
theorem step_air {e : MacEvent n P} (first : PassesFirst deque) (empty : s.pktTx = none)
    (step : s.step deque control slotNum slotPacketLen e = some t) :
    t.pktTx = none ∧
      t.air.flatMap Prod.snd = s.air.flatMap Prod.snd ++ s.takes control e := by
  cases e with
  | slot k =>
      obtain ⟨b, found, rfl⟩ := Option.map_eq_some_iff.mp step
      have sent := slotHandler_air first control slotPacketLen b
        (s := { s with scheduled := s.scheduled.eraseIdx k }) empty
      rwa [takes, found]
  | queue q | tbtp bdes sizes | reset =>
      obtain rfl := Option.some.inj step
      exact ⟨empty, (List.append_nil _).symm⟩

/-- The bursts of a run carry the cells that its slots take from the queue. -/
theorem run_air {es : List (MacEvent n P)} {q : List P} (first : PassesFirst deque)
    (reach : run (step deque control slotNum slotPacketLen) (idle q) es = some t) :
    t.air.flatMap Prod.snd =
      outputs (step deque control slotNum slotPacketLen) (takes control) (idle q) es :=
  run_record (I := fun a => a.pktTx = none) (fun a => a.air.flatMap Prod.snd) rfl
    (fun _ _ _ empty step => (step_air first empty step).1)
    (fun _ _ _ empty step => (step_air first empty step).2) reach

theorem fits_idle (slotPacketLen : ℤ) (q : List P) : (idle q).Fits slotPacketLen where
  range := show Slots.zero.total < 2 ^ 31 by decide
  scheduled _ mem := absurd mem List.not_mem_nil
  air _ mem := absurd mem List.not_mem_nil

/-- What is handed up is what is addressed exactly when no cell is for all stations. -/
theorem delivers_iff_forall {macDA : P → ℤ} {stations : Set ℕ} {air : List (ℤ × List P)}
    (pos : 1 ≤ slotPacketLen) (some_station : stations.Nonempty)
    (fits : ∀ b ∈ air, b.2.length * slotPacketLen ≤ b.1) :
    Delivers macDA slotPacketLen stations (air.flatMap Prod.snd) air ↔
      ∀ c ∈ air.flatMap Prod.snd, macDA c ≠ int32 macBroadcast := by
  have value : int32 macBroadcast = -1 := by decide
  constructor
  · intro delivers c sent broadcast
    obtain ⟨index, mem⟩ := some_station
    have handed := (handedUp_eq pos fits).symm.trans (delivers index mem)
    have addressed : c ∈ (air.flatMap Prod.snd).filter fun c => IsAddressed macDA index c :=
      List.mem_filter.mpr ⟨sent, decide_eq_true (.inr broadcast)⟩
    rw [← handed] at addressed
    have own : macDA c = index := of_decide_eq_true (List.mem_filter.mp addressed).2
    omega
  · intro none index mem
    rw [handedUp_eq pos fits]
    apply List.filter_congr
    intro c sent
    apply decide_eq_decide.mpr
    exact ⟨.inl, fun addressed => addressed.resolve_right (none c sent)⟩

/-- Over a lossless channel, every station gets the cells that are addressed to it exactly
once and in queue order, and no others, exactly as long as no slot takes a cell for
`MAC_BROADCAST`. -/
theorem delivers_iff {macDA : P → ℤ} {stations : Set ℕ} {es : List (MacEvent n P)} {q : List P}
    (first : PassesFirst deque) (pos : 1 ≤ slotPacketLen) (some_station : stations.Nonempty)
    (reach : run (step deque control slotNum slotPacketLen) (idle q) es = some t) :
    Delivers macDA slotPacketLen stations
        (outputs (step deque control slotNum slotPacketLen) (takes control) (idle q) es) t.air ↔
      Along (step deque control slotNum slotPacketLen) (NoBroadcast control macDA) (idle q) es := by
  have fits := (run_spec pos (fits_idle slotPacketLen q) Slots.sound_zero reach).1
  rw [← run_air first reach, delivers_iff_forall pos some_station fits, run_air first reach]
  exact forall_outputs_iff_along

theorem isSize_three : ∀ b ∈ [(⟨Fin.last 0, 0, 3 * 53⟩ : BurstDes 1)], IsSize b.size := by
  simp [IsSize]

/-- The first terminal gets a slot for three cells, which begins. -/
def oneSlot : List (MacEvent 1 ℤ) := [.tbtp [⟨Fin.last 0, 0, 3 * 53⟩] isSize_three, .slot 0]

/-- Cells to the stations 4 and 7 in one burst. -/
theorem delivers_iff_mixed :
    ∃ t, run (step firstOut (fun _ => false) 0 53) (idle [4, 7, 4]) oneSlot = some t ∧
      Delivers id 53 Set.univ [4, 7, 4] t.air := by
  obtain ⟨t, reach⟩ :
      ∃ t, run (step firstOut (fun _ => false) 0 53) (idle [4, 7, 4]) oneSlot = some t :=
    ⟨_, rfl⟩
  refine ⟨t, reach, ?_⟩
  apply (delivers_iff passesFirst_firstOut (by decide) ⟨4, Set.mem_univ 4⟩ reach).mpr
  decide

/-- No station hands up the cell that a link layer sends to `MAC_BROADCAST`. -/
theorem not_delivers :
    ∃ t, run (step firstOut (fun _ => false) 0 53) (idle [4, -1]) oneSlot = some t ∧
      ¬ Delivers id 53 {4}
        (outputs (step firstOut (fun _ => false) 0 53) (takes fun _ => false) (idle [4, -1])
          oneSlot) t.air := by
  refine ⟨_, rfl, fun delivers => ?_⟩
  have handed := delivers 4 rfl
  revert handed
  decide

end MacTdmaDama

end Mftdma.Tdma
