import Mftdma.Rle.Sender
import Mftdma.Tdma.Slots

/-!
# Capacity of a burst in both MACs

`MacRle::slotHandler` counts the bytes that are left in a burst in an unsigned
variable. As long as the packets have sizes that an `int` can hold, no
subtraction from it wraps, so what a burst carries and what is left of it always
add up to the slot: `fill_exact`.

`MacRle` and `MacTdmaDama` keep their counters in different ways, but both book a
slot of which no more is used than its size.
-/

namespace Mftdma.Rle

open Execution Machine Tdma

namespace Sender

/-- The remainder `bs` at the end of the loop of `slotHandler`. -/
def left : List Packet → BitVec 32 → BitVec 32
  | [], bs => bs
  | qq :: q, bs =>
      if bs < qq.psize + fhs then 0
      else if fhs + phs ≤ bs - (qq.psize + fhs) then left q (bs - (qq.psize + fhs))
      else bs - (qq.psize + fhs)

/-- No subtraction from `bs` wraps, nor does the addition it is compared with. -/
def Exact : List Packet → BitVec 32 → Prop
  | [], _ => True
  | qq :: q, bs =>
      (qq.psize + fhs).toNat = qq.psize.toNat + fhs.toNat ∧
        if bs < qq.psize + fhs then fhs.toNat ≤ bs.toNat
        else qq.psize.toNat + fhs.toNat ≤ bs.toNat ∧
          (fhs + phs ≤ bs - (qq.psize + fhs) → Exact q (bs - (qq.psize + fhs)))

end Sender

/-- What a fragment takes of a burst. -/
def Frag.cost (fh : Frag) : ℕ := fh.length.toNat + fhs.toNat

/-- What the fragments of a burst take of it. -/
def carried (fs : List Frag) : ℕ := (fs.map Frag.cost).sum

/-- A packet of a size that an `int` can hold, of which a part may have been sent. -/
structure Packet.Sized (p : Packet) : Prop where
  psize : p.psize.toNat < 2 ^ 31 + 3
  whole : p.startEnd &&& 2 ≠ 0 → p.psize = p.totalLength ∧ p.totalLength.toNat < 2 ^ 31

section fill

variable {p : Packet} {q : List Packet} {bs : BitVec 32} {next : Fin 8 → BitVec 8}

theorem sized_initPacket (uid : ℕ) (macDA : ℤ) (prio : Fin 8) {size : BitVec 32}
    (nonneg : 0 ≤ size.toInt) : (initPacket uid macDA prio size).Sized := by
  have small : size.toNat < 2 ^ 31 := by
    rw [BitVec.toInt_eq_toNat_cond] at nonneg
    split at nonneg <;> omega
  exact ⟨small.trans (by decide), fun _ => ⟨rfl, small⟩⟩

theorem Packet.Sized.add_fhs (h : p.Sized) :
    (p.psize + fhs).toNat = p.psize.toNat + fhs.toNat := by
  have := h.psize
  rw [BitVec.toNat_add_of_lt]
  show p.psize.toNat + 2 < 2 ^ 32
  omega

/-- What a split takes off is less than what there was. -/
theorem Packet.Sized.lt_of_large (h : p.Sized) (large : bs < p.psize + fhs) :
    bs.toNat < p.psize.toNat + 2 := by
  have lt := BitVec.lt_def.mp large
  rwa [h.add_fhs] at lt

theorem toNat_sub_fhs (room : 2 ≤ bs.toNat) : (bs - fhs).toNat = bs.toNat - 2 :=
  BitVec.toNat_sub_of_le (BitVec.le_def.mpr room)

/-- The size of a packet after its header has been changed for a split. -/
theorem Packet.Sized.label (h : p.Sized) :
    p.psize.toNat ≤ p.label.psize.toNat ∧ p.label.psize.toNat < 2 ^ 31 + 3 := by
  unfold Packet.label
  split
  · next whole =>
      obtain ⟨same, small⟩ := h.whole whole
      have added : (p.totalLength + (phs + ts)).toNat = p.totalLength.toNat + 3 := by
        apply BitVec.toNat_add_of_lt
        show p.totalLength.toNat + 3 < 2 ^ 32
        omega
      rw [same]
      show p.totalLength.toNat ≤ (p.totalLength + (phs + ts)).toNat ∧
        (p.totalLength + (phs + ts)).toNat < 2 ^ 31 + 3
      omega
  · exact ⟨le_rfl, h.psize⟩

/-- The burst takes off as many bytes as its last fragment has. -/
theorem Packet.Sized.psize_split (h : p.Sized) (large : bs < p.psize + fhs)
    (room : 2 ≤ bs.toNat) :
    (p.split bs).psize.toNat = p.label.psize.toNat - (bs.toNat - 2) := by
  have less := h.lt_of_large large
  have grown := h.label.1
  show (p.label.psize - (bs - fhs)).toNat = _
  rw [BitVec.toNat_sub_of_le, toNat_sub_fhs room]
  rw [BitVec.le_def, toNat_sub_fhs room]
  omega

/-- What is left of a split packet. -/
theorem Packet.Sized.split (h : p.Sized) (large : bs < p.psize + fhs) (room : 2 ≤ bs.toNat) :
    (p.split bs).Sized := by
  obtain ⟨grown, small⟩ := h.label
  have rest := h.psize_split large room
  refine ⟨by omega, fun whole => absurd ?_ whole⟩
  rw [p.split_startEnd]
  rfl

/-- A burst and what is left of it add up to the slot: nothing wraps. -/
theorem fill_exact (next : Fin 8 → BitVec 8) (sized : ∀ p ∈ q, p.Sized) (room : 2 ≤ bs.toNat) :
    carried (Sender.fill q next bs).2 + (Sender.left q bs).toNat = bs.toNat ∧
      Sender.Exact q bs ∧ ∀ p ∈ (Sender.fill q next bs).1.1, p.Sized := by
  induction q generalizing next bs with
  | nil => exact ⟨by simp [Sender.fill, Sender.left, carried], trivial, by simp [Sender.fill]⟩
  | cons p q ih =>
      obtain ⟨here, rest⟩ := List.forall_mem_cons.mp sized
      have sum := here.add_fhs
      unfold Sender.fill Sender.left Sender.Exact
      by_cases large : bs < p.psize + fhs
      · simp only [if_pos large]
        refine ⟨?_, ⟨sum, room⟩, List.forall_mem_cons.mpr ⟨here.split large room, rest⟩⟩
        have length : (p.splitFrag bs).length.toNat = bs.toNat - 2 := toNat_sub_fhs room
        simp only [carried, Frag.cost, List.map_cons, List.map_nil, List.sum_cons, List.sum_nil,
          length]
        show bs.toNat - 2 + 2 + 0 + 0 = bs.toNat
        omega
      · have le : p.psize.toNat + fhs.toNat ≤ bs.toNat := by
          have := BitVec.not_lt.mp large
          rwa [BitVec.le_def, sum] at this
        have after : (bs - (p.psize + fhs)).toNat = bs.toNat - (p.psize.toNat + fhs.toNat) := by
          rw [BitVec.toNat_sub_of_le (BitVec.not_lt.mp large), sum]
        have cost : (p.restFrag next).cost = p.psize.toNat + fhs.toNat := rfl
        simp only [if_neg large]
        by_cases more : fhs + phs ≤ bs - (p.psize + fhs)
        · have room' : 2 ≤ (bs - (p.psize + fhs)).toNat := by
            have four : 4 ≤ (bs - (p.psize + fhs)).toNat := BitVec.le_def.mp more
            omega
          obtain ⟨total, exact_, left⟩ := ih (p.advance next) rest room'
          simp only [if_pos more]
          refine ⟨?_, ⟨sum, le, fun _ => exact_⟩, left⟩
          rw [carried, List.map_cons, List.sum_cons, cost]
          rw [carried] at total
          omega
        · simp only [if_neg more]
          refine ⟨?_, ⟨sum, le, fun yes => absurd yes more⟩, rest⟩
          rw [carried, List.map_cons, List.map_nil, List.sum_singleton, cost]
          omega

end fill

/-- A `MacRle` with its counters and the bursts that it has sent, each with the size
of its slot. -/
structure MacRle where
  sender : Sender
  slots : Slots
  air : List (BitVec 32 × List Frag)

/-- A packet of a size that is not negative arrives, a slot of at least `FHS` bytes
begins, or a script resets the MAC. -/
inductive MacRleEvent where
  | recv (macDA : ℤ) (prio : Fin 8) (size : BitVec 32) (nonneg : 0 ≤ size.toInt)
  | slot (size : BitVec 32) (room : 2 ≤ size.toInt)
  | reset

namespace MacRle

/-- The counters of `slotHandler` around the loop that fills the burst. -/
def slotHandler (s : MacRle) (size : BitVec 32) : MacRle :=
  let filled := s.sender.slotHandler size
  let total := int32 (s.slots.total + size.toNat)
  if filled.2 = [] then { s with sender := filled.1, slots.total := total }
  else
    { sender := filled.1
      slots :=
        { used := int32 (s.slots.used + (size.toNat - (Sender.left s.sender.queue size).toNat))
          total := total }
      air := s.air ++ [(size, filled.2)] }

def step (s : MacRle) : MacRleEvent → Option MacRle
  | .recv macDA prio size _ => some { s with sender := (s.sender.step (.recv macDA prio size)).1 }
  | .slot size _ => some (s.slotHandler size)
  | .reset => some { s with slots := .zero }

/-- What holds whatever the counters do. -/
structure Fits (s : MacRle) : Prop where
  range : s.slots.total < 2 ^ 31
  queue : ∀ p ∈ s.sender.queue, p.Sized
  air : ∀ b ∈ s.air, carried b.2 ≤ b.1.toNat

/-- The next slot does not overflow `total_slots_`. -/
def NoOverflow (s : MacRle) : MacRleEvent → Prop
  | .slot size _ => s.slots.total + size.toNat < 2 ^ 31
  | _ => True

/-- Nothing wraps while the next slot is filled. -/
def Unwrapped (s : MacRle) : MacRleEvent → Prop
  | .slot size _ => Sender.Exact s.sender.queue size
  | _ => True

variable {s t : MacRle} {e : MacRleEvent}

theorem toNat_of_room {size : BitVec 32} (room : 2 ≤ size.toInt) :
    2 ≤ size.toNat ∧ size.toNat < 2 ^ 31 := by
  rw [BitVec.toInt_eq_toNat_cond] at room
  split at room <;> omega

/-- What a slot does to the counters and to what has been sent. -/
theorem slotHandler_spec {size : BitVec 32} (h : s.Fits) (room : 2 ≤ size.toInt) :
    Sender.Exact s.sender.queue size ∧ (s.slotHandler size).Fits ∧
      (s.slots.Sound → ((s.slotHandler size).slots.Sound ↔ s.slots.total + size.toNat < 2 ^ 31)) := by
  obtain ⟨low, high⟩ := toNat_of_room room
  obtain ⟨sum, exact_, queue⟩ := fill_exact s.sender.next h.queue low
  refine ⟨exact_, ?_⟩
  have unfolded : s.slotHandler size =
      if (s.sender.slotHandler size).2 = [] then
        { s with
          sender := (s.sender.slotHandler size).1
          slots.total := int32 (s.slots.total + size.toNat) }
      else
        { sender := (s.sender.slotHandler size).1
          slots := s.slots.book size.toNat
            (size.toNat - (Sender.left s.sender.queue size).toNat)
          air := s.air ++ [(size, (s.sender.slotHandler size).2)] } := rfl
  rw [unfolded]
  split_ifs with empty
  · refine ⟨⟨int32_lt _, queue, h.air⟩, fun sound => ?_⟩
    have range : int32 s.slots.used = s.slots.used := sound.int32_used h.range
    have booked := Slots.sound_book_iff sound h.range le_rfl
      (Int.natCast_nonneg size.toNat) (by omega)
    simpa only [Slots.book, add_zero, range] using booked
  · refine ⟨⟨int32_lt _, queue, fun b hb => ?_⟩, fun sound => ?_⟩
    · obtain old | new := List.mem_append.mp hb
      · exact h.air b old
      · obtain rfl := List.mem_singleton.mp new
        show carried (Sender.fill s.sender.queue s.sender.next size).2 ≤ size.toNat
        omega
    · exact Slots.sound_book_iff sound h.range (by omega) (by omega) (by omega)

/-- A step keeps what the slots promise, and the counters in order exactly if it
does not overflow. -/
theorem step_spec (h : s.Fits) (step : s.step e = some t) :
    s.Unwrapped e ∧ t.Fits ∧ (s.slots.Sound → (t.slots.Sound ↔ s.NoOverflow e)) := by
  cases e with
  | recv macDA prio size nonneg =>
      obtain rfl := Option.some.inj step
      refine ⟨trivial, ⟨h.range, fun p hp => ?_, h.air⟩, fun sound => iff_of_true sound trivial⟩
      obtain rfl | old := mem_of_mem_enque hp
      · exact sized_initPacket _ macDA prio nonneg
      · exact h.queue p old
  | slot size room =>
      obtain rfl := Option.some.inj step
      exact slotHandler_spec h room
  | reset =>
      obtain rfl := Option.some.inj step
      have range : Slots.zero.total < 2 ^ 31 := by decide
      exact ⟨trivial, ⟨range, h.queue, h.air⟩, fun _ => iff_of_true Slots.sound_zero trivial⟩

/-- Over a run, no burst exceeds its slot and nothing wraps, and the counters stay in
order exactly as long as no slot overflows `total_slots_`. -/
theorem run_spec {es : List MacRleEvent} (init : s.Fits) (sound : s.slots.Sound)
    (reach : run step s es = some t) :
    (∀ b ∈ t.air, carried b.2 ≤ b.1.toNat) ∧ Along step Unwrapped s es ∧
      (Throughout step (fun a => a.slots.Sound) s es ↔ Along step NoOverflow s es) := by
  have keep : ∀ a e b, Fits a → step a e = some b → Fits b :=
    fun _ _ _ ok step => (step_spec ok step).2.1
  refine ⟨(run_invariant init keep reach).air, ?_, throughout_iff_along init sound keep
    (fun _ _ _ ok sound step => (step_spec ok step).2.2 sound) reach⟩
  rw [along_iff_forall_split]
  rintro xs e ys m split before
  rw [split] at reach
  obtain ⟨m₁, step, -⟩ := run_cons_eq_some.mp (run_of_run_append before reach)
  exact (step_spec (run_invariant init keep before) step).1

/-- A new MAC. -/
def fresh : MacRle := ⟨Sender.init, .zero, []⟩

end MacRle

/-- In both MACs, whatever the queues hold, a burst never carries more than its slot,
and `0 ≤ used_slots_ ≤ total_slots_` holds at all times exactly as long as
`total_slots_` does not overflow. -/
theorem bursts_fit_and_slots_sound :
    (∀ (s t : MacRle) (es : List MacRleEvent), (∀ p ∈ s.sender.queue, p.Sized) →
      s.slots = .zero → s.air = [] → run MacRle.step s es = some t →
        (∀ b ∈ t.air, carried b.2 ≤ b.1.toNat) ∧ Along MacRle.step MacRle.Unwrapped s es ∧
          (Throughout MacRle.step (fun a => a.slots.Sound) s es ↔
            Along MacRle.step MacRle.NoOverflow s es)) ∧
    ∀ (n : ℕ) (P : Type) (deque : List P → Option (P × List P)) (control : P → Bool)
        (slotNum : Fin n) (slotPacketLen : ℤ),
      1 ≤ slotPacketLen → ∀ (s t : MacTdmaDama P) (es : List (MacEvent n P)),
        s.slots = .zero → s.scheduled = [] → s.air = [] →
        run (MacTdmaDama.step deque control slotNum slotPacketLen) s es = some t →
          (∀ b ∈ t.air, b.2.length * slotPacketLen ≤ b.1) ∧
            (Throughout (MacTdmaDama.step deque control slotNum slotPacketLen)
                (fun a => a.slots.Sound) s es ↔
              Along (MacTdmaDama.step deque control slotNum slotPacketLen)
                MacTdmaDama.NoOverflow s es) := by
  have zero : Slots.zero.total < 2 ^ 31 := by decide
  constructor
  · intro s t es sized slots air reach
    exact MacRle.run_spec ⟨by rwa [slots], sized, by simp [air]⟩ (slots ▸ Slots.sound_zero) reach
  · intro n P deque control slotNum slotPacketLen pos s t es slots scheduled air reach
    exact MacTdmaDama.run_spec pos ⟨by rwa [slots], by simp [scheduled], by simp [air]⟩
      (slots ▸ Slots.sound_zero) reach

/-- A packet of 20 bytes is sent in slots of 12 and 15 bytes; a slot of 25 bytes holds
two cells of 10. -/
theorem bursts_fit_and_slots_sound_split :
    (∃ t, run MacRle.step .fresh
        [.recv 1 (Fin.last 7) 20 (by decide), .slot 12 (by decide), .slot 15 (by decide)] = some t ∧
      ∀ b ∈ t.air, carried b.2 ≤ b.1.toNat) ∧
    ∃ t, run (MacTdmaDama.step firstOut (fun _ => false) (0 : Fin 1) 10) (.idle [7, 8, 9])
        [.tbtp [⟨0, 0, 25⟩] (List.forall_mem_singleton.mpr ⟨by decide, by decide⟩), .slot 0] =
          some t ∧
      ∀ b ∈ t.air, b.2.length * 10 ≤ b.1 := by
  have packets : ∀ p ∈ MacRle.fresh.sender.queue, p.Sized := fun p hp => nomatch hp
  constructor
  · obtain ⟨t, reach⟩ : ∃ t, run MacRle.step .fresh [.recv 1 (Fin.last 7) 20 (by decide),
        .slot 12 (by decide), .slot 15 (by decide)] = some t := ⟨_, rfl⟩
    exact ⟨t, reach, (bursts_fit_and_slots_sound.1 _ _ _ packets rfl rfl reach).1⟩
  · obtain ⟨t, reach⟩ : ∃ t, run (MacTdmaDama.step firstOut (fun _ => false) (0 : Fin 1) 10)
        (.idle [7, 8, 9]) [.tbtp [⟨0, 0, 25⟩]
          (List.forall_mem_singleton.mpr ⟨by decide, by decide⟩), .slot 0] = some t := ⟨_, rfl⟩
    exact ⟨t, reach, (bursts_fit_and_slots_sound.2 _ _ _ _ _ _ (by decide) _ _ _ rfl rfl rfl reach).1⟩

/-- Two empty slots of `2 ^ 30` bytes are enough to make `total_slots_` negative. -/
theorem total_overflows :
    (∃ t, run MacRle.step .fresh [.slot (2 ^ 30) (by decide), .slot (2 ^ 30) (by decide)] = some t ∧
      ¬ t.slots.Sound) ∧
    ∃ t, run (MacTdmaDama.step firstOut (fun _ => false) (0 : Fin 1) 10) (.idle ([] : List ℕ))
        [.tbtp [⟨0, 0, 2 ^ 30⟩] (List.forall_mem_singleton.mpr ⟨by decide, by decide⟩),
          .tbtp [⟨0, 0, 2 ^ 30⟩] (List.forall_mem_singleton.mpr ⟨by decide, by decide⟩),
          .slot 0, .slot 0] = some t ∧
      ¬ t.slots.Sound :=
  ⟨⟨_, rfl, fun sound => absurd sound.2 (by decide +kernel)⟩,
    ⟨_, rfl, fun sound => absurd sound.2 (by decide +kernel)⟩⟩

end Mftdma.Rle
