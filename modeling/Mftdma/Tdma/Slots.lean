import Mftdma.Allocator.Accounting
import Mftdma.Data.Machine

/-!
# Slot accounting of `MacTdmaDama`

`btp_decoding` schedules a burst for each descriptor of the terminal, with room
for as many cells as fit into the slot. `slotHandler` fills it from the queue
and keeps the two counters that the scripts divide: `total_slots_` grows by the
slot and `used_slots_` by each cell.

The counters are `int`. A burst never exceeds its slot, so they stay in order
exactly as long as `total_slots_` does not overflow: `Slots.sound_book_iff`.

What the queue passes on when it is resumed is a parameter. For the counters it may be
any packet; the delivery of cells needs that it is the first one, `PassesFirst`.
-/

namespace Mftdma.Tdma

open Allocator Execution Machine

/-- `used_slots_` and `total_slots_` -/
structure Slots where
  used : ℤ
  total : ℤ

namespace Slots

/-- The counters after a reset. -/
def zero : Slots := ⟨0, 0⟩

/-- What the counters are to each other. -/
def Sound (s : Slots) : Prop := 0 ≤ s.used ∧ s.used ≤ s.total

/-- A slot of `size` bytes, `carried` of them used. -/
def book (s : Slots) (size carried : ℤ) : Slots where
  used := int32 (s.used + carried)
  total := int32 (s.total + size)

theorem sound_zero : zero.Sound := ⟨le_rfl, le_rfl⟩

/-- Counters in order are values of an `int`. -/
theorem Sound.int32_used {s : Slots} (h : s.Sound) (range : s.total < 2 ^ 31) :
    int32 s.used = s.used :=
  int32_of_lt h.1 (h.2.trans_lt range)

/-- The counters stay in order exactly when `total_slots_` does not overflow. -/
theorem sound_book_iff {s : Slots} {size carried : ℤ} (h : s.Sound) (range : s.total < 2 ^ 31)
    (nonneg : 0 ≤ carried) (fits : carried ≤ size) (small : size < 2 ^ 31) :
    (s.book size carried).Sound ↔ s.total + size < 2 ^ 31 := by
  obtain ⟨low, le⟩ := h
  constructor
  · rintro ⟨low', le'⟩
    by_contra beyond
    have negative := int32_neg (x := s.total + size) (by omega) (by omega)
    simp only [book] at low' le'
    omega
  · intro fits'
    have used := int32_of_lt (x := s.used + carried) (by omega) (by omega)
    have total := int32_of_lt (x := s.total + size) (by omega) fits'
    simp only [Sound, book, used, total]
    omega

end Slots

variable {n : ℕ} {P : Type}

/-- The queue `qMon_` passes on its first packet when it is resumed. -/
def PassesFirst (deque : List P → Option (P × List P)) : Prop :=
  ∀ q, deque q = q.head?.map fun p => (p, q.tail)

/-- A queue that does. -/
def firstOut (q : List P) : Option (P × List P) := q.head?.map fun p => (p, q.tail)

theorem passesFirst_firstOut : PassesFirst (firstOut (P := P)) := fun _ => rfl

/-- A `MacTdmaDama` with the queue `qMon_`, the bursts it has scheduled and those
that it has sent, each with the size of its slot and its cells. -/
structure MacTdmaDama (P : Type) where
  queue : List P
  pktTx : Option P
  slots : Slots
  scheduled : List Burst
  air : List (ℤ × List P)

namespace MacTdmaDama

/-- `qMon_->resume()`: the packet that `deque` gives comes down to `recv`, which sends control
packets on and buffers the others. -/
def resume (deque : List P → Option (P × List P)) (control : P → Bool) (s : MacTdmaDama P) :
    MacTdmaDama P :=
  match deque s.queue with
  | none => s
  | some (p, q) =>
      if control p then { s with queue := q } else { s with queue := q, pktTx := some p }

/-- The loop of `slotHandler` over `cn` cells. -/
def fill (deque : List P → Option (P × List P)) (control : P → Bool) (slotPacketLen : ℤ) :
    ℕ → MacTdmaDama P → MacTdmaDama P × List P
  | 0, s => (s, [])
  | cn + 1, s =>
      match (s.resume deque control).pktTx with
      | none => (s.resume deque control, [])
      | some p =>
          let rest := fill deque control slotPacketLen cn
            { s.resume deque control with
              pktTx := none
              slots.used := int32 (s.slots.used + slotPacketLen) }
          (rest.1, p :: rest.2)

/-- `slotHandler` -/
def slotHandler (deque : List P → Option (P × List P)) (control : P → Bool) (slotPacketLen : ℤ)
    (s : MacTdmaDama P) (b : Burst) : MacTdmaDama P :=
  let filled := fill deque control slotPacketLen b.cellno.toNat
    { s with slots.total := int32 (s.slots.total + b.size) }
  if filled.2 = [] then filled.1
  else { filled.1 with air := filled.1.air ++ [(b.size, filled.2)] }

end MacTdmaDama

/-- The sizes that an `int` can hold. -/
def IsSize (x : ℤ) : Prop := 0 ≤ x ∧ x < 2 ^ 31

/-- What happens to the MAC: its queue changes, a TBTP arrives, the slot of a
scheduled burst begins, or a script resets it. -/
inductive MacEvent (n : ℕ) (P : Type) where
  | queue (q : List P)
  | tbtp (bdes : List (BurstDes n)) (sizes : ∀ b ∈ bdes, IsSize b.size)
  | slot (k : ℕ)
  | reset

namespace MacTdmaDama

def step (deque : List P → Option (P × List P)) (control : P → Bool) (slotNum : Fin n)
    (slotPacketLen : ℤ) (s : MacTdmaDama P) : MacEvent n P → Option (MacTdmaDama P)
  | .queue q => some { s with queue := q }
  | .tbtp bdes _ =>
      some { s with scheduled := s.scheduled ++ btpDecoding slotNum slotPacketLen bdes }
  | .slot k => s.scheduled[k]?.map fun b =>
      { s with scheduled := s.scheduled.eraseIdx k }.slotHandler deque control slotPacketLen b
  | .reset => some { s with slots := .zero }

/-- A MAC that has sent nothing, with the packets `q` in its queue. -/
def idle (q : List P) : MacTdmaDama P := ⟨q, none, .zero, [], []⟩

variable {deque : List P → Option (P × List P)} {control : P → Bool} {slotNum : Fin n}
  {slotPacketLen : ℤ} {s t : MacTdmaDama P} {cn : ℕ}

/-- Only the queue and the buffer change when the queue is resumed. -/
theorem resume_eq (deque : List P → Option (P × List P)) (control : P → Bool) (s : MacTdmaDama P) :
    ∃ q tx, s.resume deque control = { s with queue := q, pktTx := tx } := by
  unfold resume
  split
  · exact ⟨_, _, rfl⟩
  · split
    · exact ⟨_, _, rfl⟩
    · exact ⟨_, _, rfl⟩

/-- The loop takes at most `cn` cells and leaves the schedule alone. -/
theorem fill_frame (deque : List P → Option (P × List P)) (control : P → Bool) (slotPacketLen : ℤ)
    (cn : ℕ) (s : MacTdmaDama P) :
    (s.fill deque control slotPacketLen cn).2.length ≤ cn ∧
      (s.fill deque control slotPacketLen cn).1.scheduled = s.scheduled ∧
      (s.fill deque control slotPacketLen cn).1.air = s.air ∧
      (s.fill deque control slotPacketLen cn).1.slots.total = s.slots.total := by
  induction cn generalizing s with
  | zero => exact ⟨le_rfl, rfl, rfl, rfl⟩
  | succ cn ih =>
      obtain ⟨q, tx, resumed⟩ := s.resume_eq deque control
      rw [fill, resumed]
      cases tx with
      | none => exact ⟨Nat.zero_le _, rfl, rfl, rfl⟩
      | some p =>
          obtain ⟨cells, rest⟩ := ih
            { s with queue := q, pktTx := none, slots.used := int32 (s.slots.used + slotPacketLen) }
          exact ⟨Nat.succ_le_succ cells, rest⟩

/-- Each cell counts as `slotPacketLen` bytes. -/
theorem fill_slots (deque : List P → Option (P × List P)) (control : P → Bool) (slotPacketLen : ℤ)
    (cn : ℕ) (range : int32 s.slots.used = s.slots.used) :
    (s.fill deque control slotPacketLen cn).1.slots =
      { s.slots with
        used := int32 (s.slots.used +
          (s.fill deque control slotPacketLen cn).2.length * slotPacketLen) } := by
  induction cn generalizing s with
  | zero => simp [fill, range]
  | succ cn ih =>
      obtain ⟨q, tx, resumed⟩ := s.resume_eq deque control
      rw [fill, resumed]
      cases tx with
      | none => simp [range]
      | some p =>
          have idem : int32 (int32 (s.slots.used + slotPacketLen)) =
              int32 (s.slots.used + slotPacketLen) := by
            simpa using int32_add (s.slots.used + slotPacketLen) 0
          refine (ih (s := { s with
            queue := q
            pktTx := none
            slots.used := int32 (s.slots.used + slotPacketLen) }) idem).trans ?_
          simp only [int32_add, List.length_cons, Nat.cast_succ]
          congr 2
          ring

/-- A slot has room for all the cells of its burst. -/
theorem cells_le {size len : ℤ} {cells : ℕ} (pos : 1 ≤ len) (nonneg : 0 ≤ size)
    (le : cells ≤ (size.tdiv len).toNat) : cells * len ≤ size := by
  have quot : 0 ≤ size.tdiv len := Int.tdiv_nonneg nonneg (by omega)
  have le' : (cells : ℤ) ≤ size / len := by
    rw [← Int.tdiv_eq_ediv_of_nonneg nonneg]
    omega
  calc
    cells * len ≤ size / len * len := mul_le_mul_of_nonneg_right le' (by omega)
    _ ≤ size := Int.ediv_mul_le size (by omega)

/-- What holds whatever the counters do: scheduled bursts have room for the cells
that fit into the slot, and no burst sent has more than that. -/
structure Fits (slotPacketLen : ℤ) (s : MacTdmaDama P) : Prop where
  range : s.slots.total < 2 ^ 31
  scheduled : ∀ b ∈ s.scheduled, IsSize b.size ∧ b.cellno = b.size.tdiv slotPacketLen
  air : ∀ b ∈ s.air, b.2.length * slotPacketLen ≤ b.1

/-- The next slot does not overflow `total_slots_`. -/
def NoOverflow (s : MacTdmaDama P) : MacEvent n P → Prop
  | .slot k => ∀ b, s.scheduled[k]? = some b → s.slots.total + b.size < 2 ^ 31
  | _ => True

/-- What a slot does to the counters and to what has been sent. -/
theorem slotHandler_spec (deque : List P → Option (P × List P)) (control : P → Bool) {b : Burst}
    (pos : 1 ≤ slotPacketLen) (size : IsSize b.size) (cells : b.cellno = b.size.tdiv slotPacketLen) :
    ∃ sent : List P, sent.length * slotPacketLen ≤ b.size ∧
      (s.slotHandler deque control slotPacketLen b).scheduled = s.scheduled ∧
      (∀ x ∈ (s.slotHandler deque control slotPacketLen b).air, x ∈ s.air ∨ x = (b.size, sent)) ∧
      (s.slotHandler deque control slotPacketLen b).slots.total = int32 (s.slots.total + b.size) ∧
      (int32 s.slots.used = s.slots.used →
        (s.slotHandler deque control slotPacketLen b).slots =
          s.slots.book b.size (sent.length * slotPacketLen)) := by
  let entered := { s with slots.total := int32 (s.slots.total + b.size) }
  have frame := fill_frame deque control slotPacketLen b.cellno.toNat entered
  have slots := fill_slots deque control slotPacketLen b.cellno.toNat (s := entered)
  have unfolded : s.slotHandler deque control slotPacketLen b =
      if (entered.fill deque control slotPacketLen b.cellno.toNat).2 = [] then
        (entered.fill deque control slotPacketLen b.cellno.toNat).1
      else { (entered.fill deque control slotPacketLen b.cellno.toNat).1 with
        air := (entered.fill deque control slotPacketLen b.cellno.toNat).1.air ++
          [(b.size, (entered.fill deque control slotPacketLen b.cellno.toNat).2)] } := rfl
  rw [unfolded]
  generalize entered.fill deque control slotPacketLen b.cellno.toNat = filled at frame slots ⊢
  obtain ⟨le, scheduled, air, total⟩ := frame
  rw [cells] at le
  refine ⟨filled.2, cells_le pos size.1 le, ?_⟩
  split_ifs with empty
  · exact ⟨scheduled, fun x hx => .inl (air ▸ hx), total, slots⟩
  · refine ⟨scheduled, fun x hx => ?_, total, slots⟩
    obtain old | new := List.mem_append.mp hx
    · exact .inl (air ▸ old)
    · exact .inr (List.mem_singleton.mp new)

/-- The TBTP schedules bursts with as many cells as fit into their slots. -/
theorem Fits.schedule (h : s.Fits slotPacketLen) {bursts : List Burst}
    (new : ∀ b ∈ bursts, IsSize b.size ∧ b.cellno = b.size.tdiv slotPacketLen) :
    Fits slotPacketLen { s with scheduled := s.scheduled ++ bursts } :=
  ⟨h.range, fun b hb => (List.mem_append.mp hb).elim (h.scheduled b) (new b), h.air⟩

/-- A scheduled slot carries no more than its size, and keeps the counters in order exactly
if it does not overflow. -/
theorem Fits.slot (deque : List P → Option (P × List P)) (control : P → Bool)
    (pos : 1 ≤ slotPacketLen) (h : s.Fits slotPacketLen) {k : ℕ} {b : Burst} (found : s.scheduled[k]? = some b)
    (handled : slotHandler deque control slotPacketLen
      { s with scheduled := s.scheduled.eraseIdx k } b = t) :
    t.Fits slotPacketLen ∧
      (s.slots.Sound → (t.slots.Sound ↔ s.slots.total + b.size < 2 ^ 31)) := by
  obtain ⟨size, cells⟩ := h.scheduled b (List.mem_of_getElem? found)
  obtain ⟨sent, fits, scheduled, air, total, slots⟩ := slotHandler_spec deque control
    (s := { s with scheduled := s.scheduled.eraseIdx k }) pos size cells
  rw [handled] at scheduled air total slots
  refine ⟨⟨?_, fun x hx => ?_, fun x hx => ?_⟩, fun sound => ?_⟩
  · rw [total]
    exact int32_lt _
  · rw [scheduled] at hx
    exact h.scheduled x (List.mem_of_mem_eraseIdx hx)
  · obtain old | rfl := air x hx
    · exact h.air x old
    · exact fits
  · have nonneg : 0 ≤ sent.length * slotPacketLen := by positivity
    rw [slots (sound.int32_used h.range)]
    exact Slots.sound_book_iff sound h.range nonneg fits size.2

/-- A step keeps what the slots promise, and the counters in order exactly if it
does not overflow. -/
theorem step_spec {e : MacEvent n P} (pos : 1 ≤ slotPacketLen) (h : s.Fits slotPacketLen)
    (step : s.step deque control slotNum slotPacketLen e = some t) :
    t.Fits slotPacketLen ∧ (s.slots.Sound → (t.slots.Sound ↔ s.NoOverflow e)) := by
  cases e with
  | queue q =>
      obtain rfl := Option.some.inj step
      exact ⟨⟨h.range, h.scheduled, h.air⟩, fun sound => iff_of_true sound trivial⟩
  | tbtp bdes sizes =>
      obtain rfl := Option.some.inj step
      refine ⟨h.schedule fun b hb => ?_, fun sound => iff_of_true sound trivial⟩
      obtain ⟨d, mem, made⟩ := List.mem_filterMap.mp hb
      split at made
      · obtain rfl := Option.some.inj made
        exact ⟨sizes d mem, rfl⟩
      · cases made
  | slot k =>
      obtain ⟨b, found, handled⟩ := Option.map_eq_some_iff.mp step
      obtain ⟨fits, counters⟩ := h.slot deque control pos found handled
      refine ⟨fits, fun sound => (counters sound).trans ⟨fun bound b' found' => ?_, fun bound =>
        bound b found⟩⟩
      obtain rfl := Option.some.inj (found.symm.trans found')
      exact bound
  | reset =>
      obtain rfl := Option.some.inj step
      have range : Slots.zero.total < 2 ^ 31 := by decide
      exact ⟨⟨range, h.scheduled, h.air⟩, fun _ => iff_of_true Slots.sound_zero trivial⟩

/-- Over a run, no burst exceeds its slot, and the counters stay in order exactly
as long as no slot overflows `total_slots_`. -/
theorem run_spec {es : List (MacEvent n P)} (pos : 1 ≤ slotPacketLen) (init : s.Fits slotPacketLen)
    (sound : s.slots.Sound) (reach : run (step deque control slotNum slotPacketLen) s es = some t) :
    (∀ b ∈ t.air, b.2.length * slotPacketLen ≤ b.1) ∧
      (Throughout (step deque control slotNum slotPacketLen) (fun a => a.slots.Sound) s es ↔
        Along (step deque control slotNum slotPacketLen) NoOverflow s es) := by
  have keep : ∀ a e b, Fits slotPacketLen a →
      step deque control slotNum slotPacketLen a e = some b → Fits slotPacketLen b :=
    fun _ _ _ ok step => (step_spec pos ok step).1
  refine ⟨(run_invariant init keep reach).air, ?_⟩
  exact throughout_iff_along init sound keep
    (fun _ _ _ ok sound step => (step_spec pos ok step).2 sound) reach

end MacTdmaDama

end Mftdma.Tdma
