import Mftdma.Execution.Potential
import Mftdma.Rle.Capacity
import Mftdma.Rle.Star

/-!
# What the slots of a terminal take out of its queue

`slotHandler` goes on with the head of the queue as long as a burst has room for a header and
the protocol field behind it. So a slot that does not empty the queue takes all of its bytes
but three out of the work that waits there, `work_fill`, and terminals that are granted more
than they take in get rid of all that they have: `hub_catches_up`.
-/

namespace Mftdma.Rle

open Execution

/-- The bytes that a packet still takes of bursts if one more split is reckoned with: what is
left of it, a header, and what the first split adds. -/
def Packet.work (p : Packet) : ℕ :=
  p.psize.toNat + fhs.toNat + if p.startEnd &&& 2 ≠ 0 then (phs + ts).toNat else 0

def work (q : List Packet) : ℕ := (q.map Packet.work).sum

namespace SenderEvent

/-- Sizes that are not negative, and slots with room for a header. -/
def Sound : SenderEvent → Prop
  | .recv _ _ size => 0 ≤ size.toInt
  | .slot size => 2 ≤ size.toInt

instance : ∀ e, Decidable (Sound e)
  | .recv _ _ size => inferInstanceAs (Decidable (0 ≤ size.toInt))
  | .slot size => inferInstanceAs (Decidable (2 ≤ size.toInt))

/-- The work that an event brings. -/
def asks : SenderEvent → ℕ
  | .recv _ _ size => size.toNat + 5
  | .slot _ => 0

/-- The work that an event takes away, if there is so much. -/
def offers : SenderEvent → ℕ
  | .recv _ _ _ => 0
  | .slot size => size.toNat - 3

def isRecv : SenderEvent → Bool
  | .recv _ _ _ => true
  | .slot _ => false

end SenderEvent

/-- A step without its burst. -/
def Sender.move (s : Sender) (e : SenderEvent) : Option Sender := some (s.step e).1

section fill

variable {p : Packet} {q : List Packet} {bs : BitVec 32} {s t : Sender} {es : List SenderEvent}

theorem work_cons (p : Packet) (q : List Packet) : work (p :: q) = p.work + work q := by
  rw [work, List.map_cons, List.sum_cons]
  rfl

/-- The work of a packet is what a split finds. -/
theorem Packet.Sized.work (h : p.Sized) : p.work = p.label.psize.toNat + 2 := by
  unfold Packet.work Packet.label
  split
  · next whole =>
      obtain ⟨same, small⟩ := h.whole whole
      have added : (p.totalLength + (phs + ts)).toNat = p.totalLength.toNat + 3 := by
        apply BitVec.toNat_add_of_lt
        show p.totalLength.toNat + 3 < 2 ^ 32
        omega
      show p.psize.toNat + 2 + 3 = (p.totalLength + (phs + ts)).toNat + 2
      rw [same, added]
  · rfl

/-- A split takes all of the burst but its header. -/
theorem Packet.Sized.work_split (h : p.Sized) (large : bs < p.psize + fhs) (room : 2 ≤ bs.toNat) :
    (p.split bs).work + (bs.toNat - 2) = p.work := by
  have less := h.lt_of_large large
  have grown := h.label.1
  have rest : (p.split bs).work = (p.split bs).psize.toNat + 2 := by
    unfold Packet.work
    rw [p.split_startEnd]
    rfl
  rw [rest, h.psize_split large room, h.work]
  omega

/-- A slot empties the queue, or takes all of its bytes but three out of the work. -/
theorem work_fill (next : Fin 8 → BitVec 8) (sized : ∀ p ∈ q, p.Sized) (room : 2 ≤ bs.toNat) :
    (Sender.fill q next bs).1.1 = [] ∨
      work (Sender.fill q next bs).1.1 + (bs.toNat - 3) ≤ work q := by
  induction q generalizing next bs with
  | nil => exact .inl rfl
  | cons p q ih =>
      obtain ⟨here, rest⟩ := List.forall_mem_cons.mp sized
      have least : p.psize.toNat + 2 ≤ p.work := Nat.le_add_right _ _
      have sum := here.add_fhs
      rw [work_cons]
      unfold Sender.fill
      by_cases large : bs < p.psize + fhs
      · have split := here.work_split large room
        right
        rw [if_pos large, work_cons]
        omega
      · have le : p.psize.toNat + 2 ≤ bs.toNat := by
          have := BitVec.not_lt.mp large
          rwa [BitVec.le_def, sum] at this
        have after : (bs - (p.psize + fhs)).toNat = bs.toNat - (p.psize.toNat + 2) := by
          rw [BitVec.toNat_sub_of_le (BitVec.not_lt.mp large), sum]
          rfl
        rw [if_neg large]
        by_cases more : fhs + phs ≤ bs - (p.psize + fhs)
        · have four : 4 ≤ (bs - (p.psize + fhs)).toNat := BitVec.le_def.mp more
          rw [if_pos more]
          refine (ih (p.advance next) rest (by omega)).imp id fun less => ?_
          dsimp only
          omega
        · have three : (bs - (p.psize + fhs)).toNat < 4 :=
            BitVec.lt_def.mp (BitVec.not_le.mp more)
          right
          rw [if_neg more]
          dsimp only
          omega

/-- The work of a sender is paid for by what comes in, as long as slots do not empty the
queue. -/
theorem work_step {e : SenderEvent} (sound : e.Sound) (sized : ∀ p ∈ s.queue, p.Sized) :
    (∀ p ∈ (s.step e).1.queue, p.Sized) ∧
      ((0 < e.offers → (s.step e).1.queue ≠ []) →
        work (s.step e).1.queue + e.offers ≤ work s.queue + e.asks) := by
  cases e with
  | recv macDA prio size =>
      have new : (initPacket s.arrived macDA prio size).work = size.toNat + 5 := by
        have whole : (3 : BitVec 32) &&& 2 ≠ 0 := by decide
        exact congrArg (size.toNat + fhs.toNat + ·) (if_pos whole)
      have both := ((enque_perm (initPacket s.arrived macDA prio size) s.queue).map
        Packet.work).sum_eq
      rw [List.map_cons, List.sum_cons, new] at both
      refine ⟨fun p hp => ?_, fun _ => ?_⟩
      · obtain rfl | old := mem_of_mem_enque hp
        · exact sized_initPacket _ macDA prio sound
        · exact sized p old
      · exact (both.trans (Nat.add_comm _ _)).le
  | slot size =>
      have room := (MacRle.toNat_of_room sound).1
      refine ⟨(fill_exact s.next sized room).2.2, fun busy => ?_⟩
      by_cases none : size.toNat - 3 = 0
      · have kept : work (Sender.fill s.queue s.next size).1.1 ≤ work s.queue := by
          obtain empty | less := work_fill s.next sized room
          · rw [empty]
            exact Nat.zero_le _
          · omega
        show work (Sender.fill s.queue s.next size).1.1 + (size.toNat - 3) ≤ work s.queue + 0
        omega
      · exact (work_fill s.next sized room).resolve_left (busy (Nat.pos_of_ne_zero none))

end fill

section run

variable {s t : Sender} {es : List SenderEvent}

theorem run_move (s : Sender) (es : List SenderEvent) : ∃ t, run Sender.move s es = some t := by
  induction es generalizing s with
  | nil => exact ⟨s, rfl⟩
  | cons e es ih => exact ih (s.step e).1

/-- What has left the queue and what waits in it is what has come, each once. -/
theorem taken_perm (reach : run Sender.move s es = some t) :
    t.arrived = s.arrived + es.countP SenderEvent.isRecv ∧
      ((s.taken es ++ t.queue).map fun p => p.uid).Perm ((s.queue.map fun p => p.uid) ++
        List.range' s.arrived (es.countP SenderEvent.isRecv)) := by
  induction es generalizing s with
  | nil =>
      obtain rfl := Option.some.inj reach
      exact ⟨rfl, by simp [Sender.taken]⟩
  | cons e es ih =>
      obtain ⟨arrived, perm⟩ := ih (s := (s.step e).1) reach
      cases e with
      | recv macDA prio size =>
          have count : (SenderEvent.recv macDA prio size :: es).countP SenderEvent.isRecv =
              es.countP SenderEvent.isRecv + 1 := List.countP_cons_of_pos rfl
          have new := (enque_perm (initPacket s.arrived macDA prio size) s.queue).map
            fun p => p.uid
          rw [count, List.range'_succ]
          refine ⟨by rw [arrived]; exact Nat.add_right_comm _ _ _, perm.trans ?_⟩
          refine (new.append_right _).trans ?_
          exact List.perm_middle.symm
      | slot size =>
          have count : (SenderEvent.slot size :: es).countP SenderEvent.isRecv =
              es.countP SenderEvent.isRecv := List.countP_cons_of_neg (by simp [SenderEvent.isRecv])
          have keys := congrArg (List.map Prod.snd) (removed_append_fill s.queue s.next size)
          rw [List.map_map, List.map_map] at keys
          rw [count]
          refine ⟨arrived, ?_⟩
          have front : s.taken (.slot size :: es) =
              Sender.removed s.queue size ++ (s.step (.slot size)).1.taken es := rfl
          rw [front, List.append_assoc, List.map_append]
          refine (perm.append_left _).trans ?_
          rw [← List.append_assoc, ← List.map_append]
          exact (List.Perm.of_eq keys).append_right _

theorem sized_move {a b : Sender} {e : SenderEvent} (sized : ∀ p ∈ a.queue, p.Sized)
    (sound : e.Sound) (step : a.move e = some b) : ∀ p ∈ b.queue, p.Sized := by
  obtain rfl := Option.some.inj step
  exact (work_step sound sized).1

theorem sized_run (sound : ∀ e ∈ es, e.Sound) (sized : ∀ p ∈ s.queue, p.Sized)
    (reach : run Sender.move s es = some t) : ∀ p ∈ t.queue, p.Sized :=
  run_invariant_along sized (along_of_forall fun e mem _ => sound e mem)
    (fun _ _ _ => sized_move) reach

/-- Where slots offer more than there is and comes in, one of them empties the queue. -/
theorem exists_emptied (sound : ∀ e ∈ es, e.Sound) (sized : ∀ p ∈ s.queue, p.Sized)
    (enough : work s.queue + (es.map SenderEvent.asks).sum < (es.map SenderEvent.offers).sum) :
    ∃ xs size ys b, es = xs ++ .slot size :: ys ∧
      run Sender.move s (xs ++ [.slot size]) = some b ∧ b.queue = [] := by
  obtain ⟨t, reach⟩ := run_move s es
  have sounds : Along Sender.move (fun _ e => e.Sound) s es :=
    along_of_forall fun e mem _ => sound e mem
  have allowed := sounds.invariant sized fun _ _ _ => sized_move
  have amortized : ∀ (a : Sender) e b, ((∀ p ∈ a.queue, p.Sized) ∧ e.Sound) → a.move e = some b →
      (0 < e.offers → ¬ b.queue = []) → work b.queue + e.offers ≤ work a.queue + e.asks := by
    intro a e b good step
    obtain rfl := Option.some.inj step
    exact (work_step good.2 good.1).2
  rw [← tally_event _ reach, ← tally_event _ reach] at enough
  obtain ⟨xs, e, ys, m, b, rfl, before, here, offers, empty⟩ :=
    exists_rest amortized allowed reach enough
  cases e with
  | recv macDA prio size => exact absurd offers (Nat.lt_irrefl 0)
  | slot size =>
      exact ⟨xs, size, ys, b, rfl, run_snoc_eq_some.mpr ⟨m, before, here⟩, empty⟩

end run

section hub

variable {ι : Type*} [DecidableEq ι] {index : ℤ}

/-- From any moment on: as soon as the slots of a terminal offer more than what waits in its
queue and what comes in, one of them empties the queue, and when it has been heard, all the
packets that came to the terminal so far have gone up at the receiver, each once, whatever the
other terminals do. -/
theorem hub_catches_up (src : ι → ℕ) (apart : ∀ i j, i ≠ j → src i % 64 ≠ src j % 64)
    (memory : Slot → Context AlPdu) (past es : List (ι × SenderEvent))
    (toHub : ∀ i macDA prio size,
      (i, SenderEvent.recv macDA prio size) ∈ past ++ es → macDA = index)
    (i : ι) (sound : ∀ e ∈ own i (past ++ es), e.Sound) (s : Sender)
    (reach : run Sender.move .init (own i past) = some s)
    (enough : work s.queue + ((own i es).map SenderEvent.asks).sum <
      ((own i es).map SenderEvent.offers).sum) :
    ∃ xs size ys r, es = xs ++ (i, .slot size) :: ys ∧
      run (Receiver.hear index) (Receiver.init memory)
          ((uplink (fun _ => Sender.init) (past ++ xs ++ [(i, .slot size)])).map
            (heardFrom src)) = some r ∧
      ∃ ups : List (ι × AlPdu), r.up = ups.map Prod.snd ∧
        ((own i ups).map AlPdu.uid).Perm
          (List.range ((own i (past ++ xs)).countP SenderEvent.isRecv)) := by
  rw [own_append, List.forall_mem_append] at sound
  obtain ⟨as, size, bs, b, split, emptied, empty⟩ := exists_emptied sound.2
    (sized_run sound.1 (by simp [Sender.init]) reach) enough
  obtain ⟨xs, ys, rfl, rfl, rfl⟩ := own_eq_append_cons split
  have heard : past ++ (xs ++ (i, .slot size) :: ys) = past ++ xs ++ [(i, .slot size)] ++ ys := by
    simp
  obtain ⟨r, received, up⟩ := star_hears apart memory
    (fun j macDA prio size mem => toHub j macDA prio size (heard ▸ List.mem_append_left _ mem))
    (List.append_nil (uplink (fun _ => Sender.init) (past ++ xs ++ [(i, .slot size)]))).symm
  refine ⟨xs, size, ys, r, rfl, received, _, up, ?_⟩
  have mine : own i (past ++ xs ++ [(i, .slot size)]) =
      own i past ++ (own i xs ++ [.slot size]) := by
    rw [own_append, own_append, own_cons_self, List.append_assoc]
    rfl
  have whole : run Sender.move .init (own i (past ++ xs ++ [(i, .slot size)])) = some b := by
    rw [mine]
    exact run_append_eq_some.mpr ⟨s, reach, emptied⟩
  have count : (own i (past ++ xs ++ [(i, .slot size)])).countP SenderEvent.isRecv =
      (own i (past ++ xs)).countP SenderEvent.isRecv := by
    rw [own_append, List.countP_append, own_cons_self]
    rfl
  obtain ⟨-, perm⟩ := taken_perm whole
  rw [empty, List.append_nil, count] at perm
  rw [own_completedBy_uplink, List.map_map, List.range_eq_range']
  exact perm

/-- A packet of 20 bytes at one terminal, and one at the other, which has the first slot. -/
def twoBusy : List (Bool × SenderEvent) :=
  [(true, .urgent 1 20), (false, .urgent 1 30), (false, .slot 12)]

/-- Three slots of 12 bytes offer 27 bytes, and the packet takes 25. -/
def threeSlots : List (Bool × SenderEvent) :=
  [(true, .slot 12), (false, .slot 40), (true, .slot 12), (true, .slot 12)]

theorem hub_catches_up_threeSlots : ∃ xs size ys r, threeSlots = xs ++ (true, .slot size) :: ys ∧
    run (Receiver.hear 1) (Receiver.init fun _ => Context.zero)
        ((uplink (fun _ => Sender.init) (twoBusy ++ xs ++ [(true, .slot size)])).map
          (heardFrom Bool.toNat)) = some r ∧
      ∃ ups : List (Bool × AlPdu), r.up = ups.map Prod.snd ∧
        ((own true ups).map AlPdu.uid).Perm
          (List.range ((own true (twoBusy ++ xs)).countP SenderEvent.isRecv)) := by
  have apart : ∀ i j : Bool, i ≠ j → i.toNat % 64 ≠ j.toNat % 64 := by decide
  have toHub : ∀ (i : Bool) macDA prio size,
      (i, SenderEvent.recv macDA prio size) ∈ twoBusy ++ threeSlots → macDA = 1 := by
    intro i macDA prio size mem
    simp [twoBusy, threeSlots, SenderEvent.urgent] at mem
    omega
  have sound : ∀ e ∈ own true (twoBusy ++ threeSlots), e.Sound := by decide
  obtain ⟨s, reach⟩ := run_move .init (own true twoBusy)
  have enough : ∀ s ∈ run Sender.move .init (own true twoBusy),
      work s.queue + ((own true threeSlots).map SenderEvent.asks).sum <
        ((own true threeSlots).map SenderEvent.offers).sum := by decide
  exact hub_catches_up Bool.toNat apart (fun _ => Context.zero) twoBusy threeSlots toHub true sound
    s reach (enough s reach)

end hub

end Mftdma.Rle
