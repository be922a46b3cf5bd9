import Mftdma.Queue.PrioFid
import Mftdma.Rle.Wire

/-!
# The sending side of `MacRle`

Packets come from `RleLL` and wait in the interface queue `PacketQueueFid`, in
the order of their priorities. `slotHandler` fills a burst from the head of the
queue: packets that fit are sent whole or finished, and the one that does not
fit is split and stays at the head. A packet of a higher priority may overtake
it, but none of its own priority, so each priority is a legal stream of its own.
-/

namespace Mftdma.Rle

/-- A queued packet, with the fields of `hdr_ll_rle` that `slotHandler` works on.
`fragId` is also the IP priority that the queue is sorted by. -/
structure Packet extends AlPdu where
  fragId : Fin 8
  startEnd : BitVec 32
  psize : BitVec 32
deriving DecidableEq

/-- `FHS`, `PHS` and `TS` -/
def fhs : BitVec 32 := 2
def phs : BitVec 32 := 2
def ts : BitVec 32 := 1

/-- `RleLL::init_packet`, for a packet of the size `ch->size_ + alpdu_hdr_`. -/
def initPacket (uid : ℕ) (macDA : ℤ) (prio : Fin 8) (size : BitVec 32) : Packet where
  uid := uid
  macDA := macDA
  totalLength := size
  fragId := prio
  startEnd := 3
  psize := size

/-- `PacketQueueFid::enque` -/
def enque (p : Packet) (q : List Packet) : List Packet :=
  match q.getLast? with
  | none => [p]
  | some tail =>
      if tail.fragId ≤ p.fragId then q ++ [p]
      else q.takeWhile (fun curr => curr.fragId ≤ p.fragId) ++
        p :: q.dropWhile (fun curr => curr.fragId ≤ p.fragId)

namespace Packet

/-- The header changes made on the first split of a packet. -/
def label (qh : Packet) : Packet :=
  if qh.startEnd &&& 2 ≠ 0 then
    { qh with
      totalLength := qh.totalLength + (phs + ts)
      psize := qh.totalLength + (phs + ts) }
  else qh

/-- The fragment that fills a burst in which `bs` bytes are left. -/
def splitFrag (qh : Packet) (bs : BitVec 32) : Frag where
  startEnd := qh.startEnd &&& 2
  length := bs - fhs
  fragId := qh.fragId
  seqno := 0
  alpdu := qh.label.toAlPdu

/-- What stays at the head of the queue after that fragment. -/
def split (qh : Packet) (bs : BitVec 32) : Packet :=
  { qh.label with
    startEnd := qh.startEnd &&& 2 &&& 1
    psize := qh.label.psize - (bs - fhs) }

/-- The fragment that holds all that is left of a packet. -/
def restFrag (qh : Packet) (next : Fin 8 → BitVec 8) : Frag where
  startEnd := qh.startEnd ||| 1
  length := qh.psize
  fragId := qh.fragId
  seqno := if qh.startEnd ||| 1 = 1 then next qh.fragId else 0
  alpdu := qh.toAlPdu

/-- Only the last fragment of a split packet takes a sequence number. -/
def advance (qh : Packet) (next : Fin 8 → BitVec 8) : Fin 8 → BitVec 8 :=
  if qh.startEnd ||| 1 = 1 then Function.update next qh.fragId (next qh.fragId + 1) else next

end Packet

/-- The queue and the counters `next` of a sender, and the number of packets that
it has taken in, which tells them apart. -/
structure Sender where
  queue : List Packet
  next : Fin 8 → BitVec 8
  arrived : ℕ

namespace Sender

def init : Sender where
  queue := []
  next _ := 0
  arrived := 0

/-- The do-while loop of `slotHandler` over the queue, with `bs` bytes left. -/
def fill : List Packet → (Fin 8 → BitVec 8) → BitVec 32 →
    (List Packet × (Fin 8 → BitVec 8)) × List Frag
  | [], next, _ => (([], next), [])
  | qq :: q, next, bs =>
      if bs < qq.psize + fhs then
        -- too big for this frame
        ((qq.split bs :: q, next), [qq.splitFrag bs])
      else if fhs + phs ≤ bs - (qq.psize + fhs) then
        let rest := fill q (qq.advance next) (bs - (qq.psize + fhs))
        (rest.1, qq.restFrag next :: rest.2)
      else ((q, qq.advance next), [qq.restFrag next])

/-- `slotHandler`: the sender afterwards and the fragments of the burst. -/
def slotHandler (s : Sender) (size : BitVec 32) : Sender × List Frag :=
  let filled := fill s.queue s.next size
  ({ s with queue := filled.1.1, next := filled.1.2 }, filled.2)

end Sender

/-- A packet comes from the network layer, or a slot of `size` bytes begins. -/
inductive SenderEvent where
  | recv (macDA : ℤ) (prio : Fin 8) (size : BitVec 32)
  | slot (size : BitVec 32)
deriving DecidableEq

/-- A packet of the first priority comes from the network layer. -/
def SenderEvent.urgent (macDA : ℤ) (size : BitVec 32) : SenderEvent := .recv macDA 0 size

namespace Sender

def step (s : Sender) : SenderEvent → Sender × List Frag
  | .recv macDA prio size =>
      ({ s with
        queue := enque (initPacket s.arrived macDA prio size) s.queue
        arrived := s.arrived + 1 }, [])
  | .slot size => s.slotHandler size

/-- The bursts of a run, one for each event and empty for an arrival. -/
def bursts : Sender → List SenderEvent → List (List Frag)
  | _, [] => []
  | s, e :: es => (s.step e).2 :: bursts (s.step e).1 es

end Sender

section refinement

/-- A packet that has not been touched yet. -/
def Packet.Fresh (seen : List ℕ) (p : Packet) : Prop := p.startEnd = 3 ∧ p.uid ∉ seen

/-- The queued packets of one priority: the first one may be half sent. -/
def Lane (opened : Option (AlPdu × BitVec 32)) (seen : List ℕ) : List Packet → Prop
  | [] => opened = none
  | p :: ps => (opened = none ∧ p.Fresh seen ∨
      opened = some (p.toAlPdu, p.psize) ∧ p.startEnd = 0) ∧ ∀ q ∈ ps, q.Fresh seen

/-- The sender agrees with what the channel has seen of it. -/
structure Ready (s : Sender) (w : Wire) : Prop where
  next : w.next = s.next
  sorted : s.queue.Pairwise fun p q => p.fragId ≤ q.fragId
  uids : (s.queue.map fun p => p.uid).Nodup
  waiting : ∀ p ∈ s.queue, p.uid < s.arrived
  sent : ∀ u ∈ w.seen, u < s.arrived
  lane : ∀ f, Lane (w.opened f) w.seen (s.queue.filter fun p => p.fragId = f)

variable {opened : Option (AlPdu × BitVec 32)} {seen : List ℕ} {ps q : List Packet} {p : Packet}

theorem Packet.Fresh.cons {u : ℕ} (h : p.Fresh seen) (other : p.uid ≠ u) :
    p.Fresh (u :: seen) :=
  ⟨h.1, fun mem => (List.mem_cons.mp mem).elim other h.2⟩

/-- Other lanes do not notice a packet that has been sent. -/
theorem Lane.see {u : ℕ} (h : Lane opened seen ps) (other : ∀ p ∈ ps, p.uid ≠ u) :
    Lane opened (u :: seen) ps := by
  cases ps with
  | nil => exact h
  | cons p ps =>
      obtain ⟨head, rest⟩ := h
      refine ⟨?_, fun q hq => (rest q hq).cons (other q (List.mem_cons_of_mem p hq))⟩
      obtain ⟨closed, fresh⟩ | busy := head
      · exact .inl ⟨closed, fresh.cons (other p List.mem_cons_self)⟩
      · exact .inr busy

theorem Lane.snoc (h : Lane opened seen ps) (fresh : p.Fresh seen) :
    Lane opened seen (ps ++ [p]) := by
  cases ps with
  | nil => exact ⟨.inl ⟨h, fresh⟩, by simp⟩
  | cons p' ps =>
      refine ⟨h.1, fun q hq => ?_⟩
      obtain old | new := List.mem_append.mp hq
      · exact h.2 q old
      · exact (List.mem_singleton.mp new) ▸ fresh

theorem lane_of_fresh (h : ∀ p ∈ ps, p.Fresh seen) : Lane none seen ps := by
  cases ps with
  | nil => rfl
  | cons p ps =>
      exact ⟨.inl ⟨rfl, h p List.mem_cons_self⟩, fun q hq => h q (List.mem_cons_of_mem p hq)⟩

theorem ready_init : Ready Sender.init Wire.idle :=
  ⟨rfl, .nil, by simp [Sender.init], by simp [Sender.init], by simp [Wire.idle], fun _ => rfl⟩

/-- A new packet goes behind all packets of its own and of higher priorities. -/
theorem enque_spec (p : Packet) (sorted : q.Pairwise fun a b => a.fragId ≤ b.fragId) :
    ∃ l r, q = l ++ r ∧ enque p q = l ++ p :: r ∧ (∀ a ∈ l, a.fragId ≤ p.fragId) ∧
      ∀ a ∈ r, p.fragId < a.fragId := by
  unfold enque
  split
  · next empty =>
      rw [List.getLast?_eq_none_iff] at empty
      subst empty
      exact ⟨[], [], rfl, rfl, by simp, by simp⟩
  · next tail found =>
      obtain ⟨front, rfl⟩ := List.getLast?_eq_some_iff.mp found
      have last : ∀ a ∈ front, a.fragId ≤ tail.fragId := fun a ha =>
        (List.pairwise_append.mp sorted).2.2 a ha tail (List.mem_singleton.mpr rfl)
      split
      · next le =>
          refine ⟨front ++ [tail], [], by simp, rfl, fun a ha => ?_, by simp⟩
          obtain old | new := List.mem_append.mp ha
          · exact (last a old).trans le
          · exact (List.mem_singleton.mp new) ▸ le
      · obtain ⟨small, large⟩ := StableQueue.split_of_sorted p.fragId sorted
        exact ⟨_, _, List.takeWhile_append_dropWhile.symm, rfl, small, large⟩

theorem enque_eq_place (p : Packet) (sorted : q.Pairwise fun a b => a.fragId ≤ b.fragId) :
    enque p q = StableQueue.place Packet.fragId p q := by
  unfold enque
  split
  · next empty =>
      rw [List.getLast?_eq_none_iff] at empty
      subst empty
      rfl
  · next tail found =>
      obtain ⟨front, rfl⟩ := List.getLast?_eq_some_iff.mp found
      split
      · next le =>
          refine (StableQueue.place_of_forall_le fun a ha => ?_).symm
          obtain old | new := List.mem_append.mp ha
          · exact ((List.pairwise_append.mp sorted).2.2 a old tail (by simp)).trans le
          · exact (List.mem_singleton.mp new) ▸ le
      · rfl

/-- `enque` is what `PacketQueueFid::enque` does to the list it links, where `content`
gives the packet behind each pointer. -/
theorem enque_linked {α : Type*} [DecidableEq α] {s : Queue.PacketQueue α} {l : List α} {a : α}
    (content : α → Packet) (prio : ∀ b, s.prio b = ((content b).fragId : ℕ))
    (linked : s.Queued l) (sorted : l.Pairwise fun b c => s.prio b ≤ s.prio c)
    (len : s.len = l.length) (fresh : a ∉ l) :
    ∃ t l', Queue.PacketQueueFid.enque s a = some (s.tail, t) ∧ t.Queued l' ∧
      l'.map content = enque (content a) (l.map content) := by
  obtain ⟨t, done, queued, -⟩ := linked.enque sorted len fresh
  have order : ∀ b c, (content b).fragId ≤ (content c).fragId ↔ s.prio b ≤ s.prio c := by
    intro b c
    rw [prio, prio, Int.ofNat_le, Fin.le_iff_val_le_val]
  refine ⟨t, _, done, queued, ?_⟩
  rw [enque_eq_place, StableQueue.place_map content fun b _ => order b a]
  exact List.pairwise_map.mpr (sorted.imp fun le => (order _ _).mpr le)

theorem enque_perm (p : Packet) (q : List Packet) : (enque p q).Perm (p :: q) := by
  unfold enque
  split
  · next empty =>
      rw [List.getLast?_eq_none_iff.mp empty]
  · split
    · exact List.perm_append_singleton p q
    · refine List.perm_middle.trans (.cons p ?_)
      rw [List.takeWhile_append_dropWhile]

theorem mem_of_mem_enque {a : Packet} (mem : a ∈ enque p q) : a = p ∨ a ∈ q :=
  List.mem_cons.mp ((enque_perm p q).mem_iff.mp mem)

/-- Taking a packet into the queue keeps the agreement. -/
theorem Ready.recv {s : Sender} {w : Wire} (h : Ready s w) (macDA : ℤ) (prio : Fin 8)
    (size : BitVec 32) : Ready (s.step (.recv macDA prio size)).1 w := by
  obtain ⟨l, r, split, result, small, large⟩ :=
    enque_spec (initPacket s.arrived macDA prio size) h.sorted
  have sorted := h.sorted
  have uids := h.uids
  have waiting := h.waiting
  have lane := h.lane
  simp only [split] at sorted uids waiting lane
  constructor <;> simp only [Sender.step, result]
  · exact h.next
  · exact StableQueue.pairwise_insert sorted small fun a ha => (large a ha).le
  · have new : s.arrived ∉ (l ++ r).map fun p => p.uid := fun mem => by
      obtain ⟨p, hp, same⟩ := List.mem_map.mp mem
      have := waiting p hp
      omega
    have perm : (l ++ initPacket s.arrived macDA prio size :: r).Perm
        (initPacket s.arrived macDA prio size :: (l ++ r)) := List.perm_middle
    rw [(perm.map fun p => p.uid).nodup_iff, List.map_cons, List.nodup_cons]
    exact ⟨new, uids⟩
  · intro p hp
    obtain old | new := List.mem_append.mp hp
    · exact Nat.lt_succ_of_lt (waiting p (List.mem_append_left _ old))
    · obtain rfl | old := List.mem_cons.mp new
      · exact Nat.lt_succ_self _
      · exact Nat.lt_succ_of_lt (waiting p (List.mem_append_right _ old))
  · exact fun u hu => Nat.lt_succ_of_lt (h.sent u hu)
  · intro f
    have laneF := lane f
    rw [List.filter_append] at laneF ⊢
    by_cases own : prio = f
    · subst own
      have behind : r.filter (fun p => p.fragId = prio) = [] := by
        apply List.filter_eq_nil_iff.mpr
        intro a ha same
        exact absurd (of_decide_eq_true same) (large a ha).ne'
      rw [behind, List.append_nil] at laneF
      rw [List.filter_cons_of_pos (by simp [initPacket]), behind]
      exact laneF.snoc ⟨rfl, fun mem => absurd (h.sent _ mem) (lt_irrefl _)⟩
    · rwa [List.filter_cons_of_neg (by simp [initPacket, own])]

variable {next : Fin 8 → BitVec 8} {arrived : ℕ} {w : Wire}

theorem Ready.head_lane (h : Ready ⟨p :: q, next, arrived⟩ w) :
    Lane (w.opened p.fragId) w.seen (p :: q.filter fun a => a.fragId = p.fragId) := by
  have lane := h.lane p.fragId
  rwa [List.filter_cons_of_pos (by simp)] at lane

theorem Ready.head_uid (h : Ready ⟨p :: q, next, arrived⟩ w) : ∀ a ∈ q, a.uid ≠ p.uid := by
  have new := (List.nodup_cons.mp h.uids).1
  rintro a ha same
  exact new (List.mem_map.mpr ⟨a, ha, same⟩)

/-- The lanes of the packets behind the head, when the head is replaced by packets
of its own lane. -/
private theorem lane_behind (q' : List Packet) {opened : Fin 8 → Option (AlPdu × BitVec 32)}
    {seen : List ℕ} (h : Ready ⟨p :: q, next, arrived⟩ w) (front : ∀ a ∈ q', a.fragId = p.fragId)
    (same : ∀ f, f ≠ p.fragId → opened f = w.opened f)
    (grow : seen = w.seen ∨ seen = p.uid :: w.seen)
    (own : Lane (opened p.fragId) seen (q' ++ q.filter fun a => a.fragId = p.fragId)) (f : Fin 8) :
    Lane (opened f) seen ((q' ++ q).filter fun a => a.fragId = f) := by
  rw [List.filter_append]
  by_cases here : f = p.fragId
  · subst here
    rwa [List.filter_eq_self.mpr fun a ha => by simpa using front a ha]
  · have lane := h.lane f
    rw [List.filter_cons_of_neg (by simpa using Ne.symm here)] at lane
    have none : q'.filter (fun a => a.fragId = f) = [] := by
      refine List.filter_eq_nil_iff.mpr fun a ha match_ => here ?_
      rw [← front a ha]
      exact (of_decide_eq_true match_).symm
    rw [none, List.nil_append, same f here]
    obtain rfl | rfl := grow
    · exact lane
    · exact lane.see fun a ha => h.head_uid a (List.mem_of_mem_filter ha)

private theorem sent_grow {seen : List ℕ} (h : Ready ⟨p :: q, next, arrived⟩ w)
    (grow : seen = w.seen ∨ seen = p.uid :: w.seen) : ∀ u ∈ seen, u < arrived := by
  obtain rfl | rfl := grow
  · exact h.sent
  · exact List.forall_mem_cons.mpr ⟨h.waiting p List.mem_cons_self, h.sent⟩

@[simp] theorem Packet.split_uid (bs : BitVec 32) : (p.split bs).uid = p.uid := by
  unfold Packet.split Packet.label
  split <;> rfl

@[simp] theorem Packet.split_fragId (bs : BitVec 32) : (p.split bs).fragId = p.fragId := by
  unfold Packet.split Packet.label
  split <;> rfl

@[simp] theorem Packet.label_uid : p.label.uid = p.uid := by
  unfold Packet.label
  split <;> rfl

/-- A packet that has been split is neither whole nor first nor last. -/
@[simp] theorem Packet.split_startEnd (p : Packet) (bs : BitVec 32) : (p.split bs).startEnd = 0 := by
  show p.startEnd &&& 2 &&& 1 = 0
  rw [BitVec.and_assoc]
  simp

theorem Packet.label_of_rest (se : p.startEnd = 0) : p.label = p := by simp [Packet.label, se]

/-- The head of the queue may be replaced by what is left of it. -/
private theorem Ready.resume (h : Ready ⟨p :: q, next, arrived⟩ w) (bs : BitVec 32) {w' : Wire}
    (counters : w'.next = w.next) (same : ∀ f, f ≠ p.fragId → w'.opened f = w.opened f)
    (grow : w'.seen = w.seen ∨ w'.seen = p.uid :: w.seen)
    (opened : w'.opened p.fragId = some ((p.split bs).toAlPdu, (p.split bs).psize)) :
    Ready ⟨p.split bs :: q, next, arrived⟩ w' := by
  have fresh : ∀ a ∈ q.filter (fun a => a.fragId = p.fragId), a.Fresh w'.seen := by
    intro a ha
    have old := h.head_lane.2 a ha
    obtain eq | eq := grow
    · rwa [eq]
    · rw [eq]
      exact old.cons (h.head_uid a (List.mem_of_mem_filter ha))
  obtain ⟨least, sorted⟩ := List.pairwise_cons.mp h.sorted
  refine ⟨counters.trans h.next, List.pairwise_cons.mpr ⟨by simpa using least, sorted⟩,
    by simpa using h.uids, List.forall_mem_cons.mpr ⟨?_, ?_⟩, sent_grow h grow, ?_⟩
  · simpa using h.waiting p List.mem_cons_self
  · exact fun a ha => h.waiting a (List.mem_cons_of_mem p ha)
  · exact lane_behind [p.split bs] h (by simp) same grow
      ⟨.inr ⟨opened, p.split_startEnd bs⟩, fresh⟩

/-- A packet that is too big is split, and stays at the head. -/
theorem Ready.split (h : Ready ⟨p :: q, next, arrived⟩ w) (bs : BitVec 32) :
    ∃ w', w.Sends (p.splitFrag bs) w' ∧ Ready ⟨p.split bs :: q, next, arrived⟩ w' := by
  obtain ⟨closed, se, new⟩ | ⟨busy, se⟩ := h.head_lane.1
  · refine ⟨_, .first ?_ closed (by simpa [Packet.splitFrag] using new),
      h.resume bs rfl ?_ (.inr ?_) ?_⟩
    · simp [Packet.splitFrag, se]
    · exact fun f other => Function.update_of_ne other _ _
    · simp [Packet.splitFrag]
    · simp [Packet.splitFrag, Packet.split, Packet.label, se]
  · have label := Packet.label_of_rest se
    refine ⟨_, .middle p.psize ?_ ?_, h.resume bs rfl ?_ (.inl rfl) ?_⟩
    · simp [Packet.splitFrag, se]
    · simp only [Packet.splitFrag, label]
      exact busy
    · exact fun f other => Function.update_of_ne other _ _
    · simp [Packet.splitFrag, Packet.split, label]

/-- A packet that fits leaves the queue. -/
theorem Ready.rest (h : Ready ⟨p :: q, next, arrived⟩ w) :
    ∃ w', w.Sends (p.restFrag next) w' ∧ Ready ⟨q, p.advance next, arrived⟩ w' := by
  have fresh := h.head_lane.2
  obtain ⟨least, sorted⟩ := List.pairwise_cons.mp h.sorted
  have uids := (List.nodup_cons.mp h.uids).2
  have waiting : ∀ a ∈ q, a.uid < arrived := fun a ha =>
    h.waiting a (List.mem_cons_of_mem p ha)
  obtain ⟨closed, se, new⟩ | ⟨busy, se⟩ := h.head_lane.1
  · have whole : p.advance next = next := by simp [Packet.advance, se]
    have seen : ∀ a ∈ q.filter (fun a => a.fragId = p.fragId), a.Fresh (p.uid :: w.seen) :=
      fun a ha => (fresh a ha).cons (h.head_uid a (List.mem_of_mem_filter ha))
    refine ⟨_, .whole ?_ closed new, ?_⟩
    · simp [Packet.restFrag, se]
    · rw [whole]
      refine ⟨h.next, sorted, uids, waiting, sent_grow h (.inr rfl), ?_⟩
      apply lane_behind [] h (by simp) (fun _ _ => rfl) (.inr rfl)
      rw [closed]
      exact lane_of_fresh seen
  · refine ⟨_, .last ?_ busy ?_, ?_⟩
    · simp [Packet.restFrag, se]
    · simp [Packet.restFrag, se, h.next]
    · refine ⟨?_, sorted, uids, waiting, h.sent, ?_⟩
      · simp [Packet.advance, se, Packet.restFrag, h.next]
      · refine lane_behind [] h (by simp)
          (fun f other => Function.update_of_ne other _ _) (.inl rfl) ?_
        simp only [Packet.restFrag, Function.update_self]
        exact lane_of_fresh fresh

theorem Ready.fill {queue : List Packet} (h : Ready ⟨queue, next, arrived⟩ w) (bs : BitVec 32) :
    ∃ w', w.Stream (Sender.fill queue next bs).2 w' ∧
      Ready ⟨(Sender.fill queue next bs).1.1, (Sender.fill queue next bs).1.2, arrived⟩ w' := by
  induction queue generalizing next w bs with
  | nil => exact ⟨w, .nil w, h⟩
  | cons p q ih =>
      unfold Sender.fill
      split
      · obtain ⟨w', sends, ready⟩ := h.split bs
        exact ⟨w', .cons sends (.nil _), ready⟩
      · obtain ⟨w', sends, ready⟩ := h.rest
        split
        · obtain ⟨w'', stream, ready⟩ := ih ready (bs - (p.psize + fhs))
          exact ⟨w'', .cons sends stream, ready⟩
        · exact ⟨w', .cons sends (.nil _), ready⟩

/-- Every event of the sender is a stream for the channel. -/
theorem Ready.step {s : Sender} (h : Ready s w) (e : SenderEvent) :
    ∃ w', w.Stream (s.step e).2 w' ∧ Ready (s.step e).1 w' := by
  cases e with
  | recv macDA prio size => exact ⟨w, .nil w, h.recv macDA prio size⟩
  | slot size => exact Ready.fill h size

theorem Ready.bursts {s : Sender} (h : Ready s w) (es : List SenderEvent) :
    ∃ w', w.Stream (s.bursts es).flatten w' := by
  induction es generalizing s w with
  | nil => exact ⟨w, .nil w⟩
  | cons e es ih =>
      obtain ⟨w', first, ready⟩ := h.step e
      obtain ⟨w'', rest⟩ := ih ready
      exact ⟨w'', first.append rest⟩

/-- Whatever arrives and whatever the burst sizes are, the sender is legal. -/
theorem bursts_legal (es : List SenderEvent) :
    ∃ w, Legal (Sender.init.bursts es).flatten w :=
  ready_init.bursts es

end refinement

end Mftdma.Rle
