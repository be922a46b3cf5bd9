import Mathlib.Tactic.Abel
import Mftdma.Rle.SequenceNumbers

/-!
# The round trip of a packet

When all packets go to one station and nothing is lost, its receiver expects the
number it gets and has counted all bytes of a packet when its last fragment
comes. So each last or whole fragment hands its packet up: `Sync.deliver`.

On the sending side these are the packets that `slotHandler` removes from the
queue, and a packet is removed only after those of its priority that came before.
-/

namespace Mftdma.Rle

open Execution

/-- The packets of the last and whole fragments of a stream. -/
def completed (fs : List Frag) : List AlPdu :=
  (fs.filter fun fh => fh.startEnd &&& 1 ≠ 0).map Frag.alpdu

namespace Sender

/-- The packets that `slotHandler` takes out of the queue. -/
def removed : List Packet → BitVec 32 → List Packet
  | [], _ => []
  | qq :: q, bs =>
      if bs < qq.psize + fhs then []
      else if fhs + phs ≤ bs - (qq.psize + fhs) then
        qq :: removed q (bs - (qq.psize + fhs))
      else [qq]

/-- The packets taken out of the queue in a run. -/
def taken : Sender → List SenderEvent → List Packet
  | _, [] => []
  | s, .recv macDA prio size :: es => taken (s.step (.recv macDA prio size)).1 es
  | s, .slot size :: es => removed s.queue size ++ taken (s.step (.slot size)).1 es

end Sender

/-- All packets of the run go to the station `index`. -/
def ToOne (index : ℤ) (es : List SenderEvent) : Prop :=
  ∀ macDA prio size, SenderEvent.recv macDA prio size ∈ es → macDA = index

/-- Different packets, and in the order of their arrival if of one priority. -/
def Before (p q : Packet) : Prop := p.uid ≠ q.uid ∧ (p.fragId = q.fragId → p.uid < q.uid)

section receiver

variable {index : ℤ} {src : ℕ} {w w' : Wire} {fs : List Frag} {fh : Frag} {r : Receiver}

@[simp] theorem completed_append (xs ys : List Frag) :
    completed (xs ++ ys) = completed xs ++ completed ys := by
  simp [completed]

theorem completed_cons_of_open {fs : List Frag} (h : fh.startEnd &&& 1 = 0) :
    completed (fh :: fs) = completed fs := by
  rw [completed, List.filter_cons_of_neg (by simpa using h)]
  rfl

theorem completed_cons_of_last {fs : List Frag} (h : fh.startEnd &&& 1 ≠ 0) :
    completed (fh :: fs) = fh.alpdu :: completed fs := by
  rw [completed, List.filter_cons_of_pos (by simpa using h)]
  rfl

/-- Nothing is sent elsewhere. -/
theorem elsewhere_eq_zero (f : Fin 8) (toUs : ∀ fh ∈ fs, fh.alpdu.macDA = index) :
    elsewhere index f fs = 0 := by
  rw [elsewhere, List.length_eq_zero_iff]
  cases last : (fs.filter (Frag.isLast f)).reverse with
  | nil => rfl
  | cons g gs =>
      have mem : g ∈ (fs.filter (Frag.isLast f)).reverse := last ▸ List.mem_cons_self
      have own := toUs g (List.mem_of_mem_filter (List.mem_reverse.mp mem))
      simp [own]

/-- The context of each open packet holds it, and all that was sent of it. -/
def Carries (index : ℤ) (src : ℕ) (w : Wire) (r : Receiver) : Prop :=
  ∀ f a rest, w.opened f = some (a, rest) → a.macDA = index →
    ∃ b, r.table.lane src f = some b ∧ b.len + rest = a.totalLength

/-- The last fragment finds its packet, the number expected and all bytes counted. -/
theorem Sync.accepts {b : Buffer AlPdu} (h : Sync index src w fs r)
    (toUs : ∀ g ∈ fs, g.alpdu.macDA = index) (se : fh.startEnd = 1)
    (own : fh.alpdu.macDA = index) (opened : w.opened fh.fragId = some (fh.alpdu, fh.length))
    (seqno : fh.seqno = w.next fh.fragId) (found : r.table.look src fh.fragId = some b)
    (counted : b.len + fh.length = fh.alpdu.totalLength) :
    b.pkt = some fh.alpdu ∧ b.Accepts fh := by
  obtain ⟨d, found', pkt, sn⟩ := h.look fh.fragId
  obtain rfl := Option.some.inj (found.symm.trans found')
  have number : b.expSn = fh.seqno := by
    rw [sn, elsewhere_eq_zero _ toUs, Nat.sub_zero, seqno, (h.lane fh.fragId).next]
  refine ⟨by simpa [Wire.mine, opened, own] using pkt, ?_, ?_⟩
  · simpa [Buffer.add, Buffer.start, se] using counted
  · simpa [Buffer.add, Buffer.start, se] using number

/-- Only the context of the priority of a fragment has to be looked at again. -/
theorem Carries.step {r' : Receiver} (h : Carries index src w r) (sends : w.Sends fh w')
    (frame : ∀ f ≠ fh.fragId, r'.table.lane src f = r.table.lane src f)
    (here : ∀ a rest, w'.opened fh.fragId = some (a, rest) → a.macDA = index →
      ∃ b, r'.table.lane src fh.fragId = some b ∧ b.len + rest = a.totalLength) :
    Carries index src w' r' := by
  intro f a rest opened mine
  by_cases own : f = fh.fragId
  · subst own
    exact here a rest opened mine
  · rw [(sends.other own).1] at opened
    obtain ⟨b, lane, counted⟩ := h f a rest opened mine
    exact ⟨b, (frame f own).trans lane, counted⟩

/-- The last fragment hands its packet up. -/
theorem Sync.completes {r' : Receiver} (h : Sync index src w fs r)
    (carries : Carries index src w r) (toUs : ∀ g ∈ fs, g.alpdu.macDA = index)
    (own : fh.alpdu.macDA = index) (se : fh.startEnd = 1)
    (opened : w.opened fh.fragId = some (fh.alpdu, fh.length))
    (seqno : fh.seqno = w.next fh.fragId) (step : r.recvFrag index src fh = some r') :
    r'.up = r.up ++ [fh.alpdu] := by
  obtain ⟨fl, indexed⟩ := h.indexed
  obtain ⟨b, b', up, found, used, received, grown, -⟩ :=
    Receiver.recvFrag_receive indexed own (by simp [se]) step
  obtain ⟨d, lane, counted⟩ := carries _ _ _ opened own
  obtain rfl := used d lane
  obtain ⟨busy, accepts⟩ := h.accepts toUs se own opened seqno found counted
  obtain rfl : up = [fh.alpdu] := by
    simp [Buffer.receive, se, accepts, Buffer.add, Buffer.start, busy] at received
    exact received.2.symm
  exact grown

/-- Each fragment keeps the receiver in step, and hands its packet up if it is the
last one. -/
theorem Sync.deliver (h : Sync index src w fs r) (carries : Carries index src w r)
    (toUs : ∀ g ∈ fs, g.alpdu.macDA = index) (sends : w.Sends fh w')
    (own : fh.alpdu.macDA = index) :
    ∃ r', r.recvFrag index src fh = some r' ∧ Sync index src w' (fs ++ [fh]) r' ∧
      Carries index src w' r' ∧ r'.up = r.up ++ completed [fh] := by
  obtain ⟨r', step, sync⟩ := h.step sends
  refine ⟨r', step, sync, ?_⟩
  obtain ⟨fl, indexed⟩ := h.indexed
  obtain ⟨-, frame⟩ := Receiver.recvFrag_frame indexed step
  have keep := carries.step sends frame
  cases sends with
  | whole se closed new =>
      have whole : r.recvFrag index src fh = some { r with up := r.up ++ [fh.alpdu] } := by
        simp [Receiver.recvFrag, own, se]
      obtain rfl := Option.some.inj (whole.symm.trans step)
      refine ⟨carries, ?_⟩
      rw [completed_cons_of_last (by simp [se])]
      rfl
  | first se closed new =>
      obtain ⟨b, -, -, lane, up⟩ := Receiver.recvFrag_add indexed own (by simp [se]) step
      refine ⟨keep fun a rest opened mine => ?_, ?_⟩
      · simp only [Function.update_self, Option.some.injEq, Prod.mk.injEq] at opened
        obtain ⟨rfl, rfl⟩ := opened
        exact ⟨_, lane, by simp [Buffer.add, Buffer.start, se]⟩
      · rw [up, completed_cons_of_open (by simp [se])]
        exact (List.append_nil r.up).symm
  | middle rest₀ se opened₀ =>
      obtain ⟨b, -, used, lane, up⟩ := Receiver.recvFrag_add indexed own (by simp [se]) step
      obtain ⟨d, lane₀, counted⟩ := carries _ _ _ opened₀ own
      obtain rfl := used d lane₀
      refine ⟨keep fun a rest opened mine => ?_, ?_⟩
      · simp only [Function.update_self, Option.some.injEq, Prod.mk.injEq] at opened
        obtain ⟨rfl, rfl⟩ := opened
        have add : (b.add fh).len = b.len + fh.length := by simp [Buffer.add, Buffer.start, se]
        refine ⟨_, lane, ?_⟩
        rw [add, ← counted]
        abel
      · rw [up, completed_cons_of_open (by simp [se])]
        exact (List.append_nil r.up).symm
  | last se opened₀ seqno =>
      refine ⟨keep fun a rest opened mine => ?_, ?_⟩
      · simp only [Function.update_self] at opened
        cases opened
      · rw [h.completes carries toUs own se opened₀ seqno step,
          completed_cons_of_last (by simp [se])]
        rfl

/-- A receiver that hears all of a stream hands up what it completes. -/
theorem deliver_run (index : ℤ) (src : ℕ) (memory : Slot → Context AlPdu) (legal : Legal fs w)
    (toUs : ∀ g ∈ fs, g.alpdu.macDA = index) :
    ∃ r, run (Receiver.recvFrag index src) (Receiver.init memory) fs = some r ∧
      Sync index src w fs r ∧ Carries index src w r ∧ r.up = completed fs := by
  induction fs using List.reverseRecOn generalizing w with
  | nil =>
      cases legal
      refine ⟨_, rfl, sync_init index src memory, ?_, rfl⟩
      rintro f a rest ⟨⟩
  | append_singleton fs fh ih =>
      obtain ⟨w₀, legal₀, sends⟩ := legal_snoc_iff.mp legal
      have toUs₀ := fun g hg => toUs g (List.mem_append_left [fh] hg)
      obtain ⟨r, reach, sync, carries, up⟩ := ih legal₀ toUs₀
      obtain ⟨r', step, sync', carries', up'⟩ :=
        sync.deliver carries toUs₀ sends (toUs fh (by simp))
      exact ⟨r', run_snoc_eq_some.mpr ⟨r, reach, step⟩, sync', carries', by
        rw [up', up, completed_append]⟩

end receiver

section sender

variable {index : ℤ} {s : Sender} {q : List Packet} {p : Packet} {next : Fin 8 → BitVec 8}
  {bs : BitVec 32}

theorem restFrag_last (p : Packet) (next : Fin 8 → BitVec 8) :
    (p.restFrag next).startEnd &&& 1 ≠ 0 := by
  intro zero
  have bit : ((p.startEnd ||| 1) &&& 1).getLsbD 0 = true := by simp
  rw [show (p.startEnd ||| 1) &&& 1 = 0 from zero] at bit
  cases bit

theorem splitFrag_open (p : Packet) (bs : BitVec 32) : (p.splitFrag bs).startEnd &&& 1 = 0 :=
  p.split_startEnd bs

/-- The last and whole fragments of a burst are those of the packets that leave the
queue. -/
theorem completed_fill (q : List Packet) (next : Fin 8 → BitVec 8) (bs : BitVec 32) :
    completed (Sender.fill q next bs).2 = (Sender.removed q bs).map Packet.toAlPdu := by
  induction q generalizing next bs with
  | nil => rfl
  | cons p q ih =>
      unfold Sender.fill Sender.removed
      split_ifs with large more
      · rw [completed_cons_of_open (splitFrag_open p bs)]
        rfl
      · rw [completed_cons_of_last (restFrag_last p next), ih]
        rfl
      · rw [completed_cons_of_last (restFrag_last p next)]
        rfl

theorem completed_bursts (s : Sender) (es : List SenderEvent) :
    completed (s.bursts es).flatten = (s.taken es).map Packet.toAlPdu := by
  induction es generalizing s with
  | nil => rfl
  | cons e es ih =>
      rw [Sender.bursts, List.flatten_cons, completed_append, ih]
      cases e with
      | recv macDA prio size => rfl
      | slot size =>
          rw [Sender.taken, List.map_append]
          exact congrArg (· ++ _) (completed_fill s.queue s.next size)

/-- What tells packets apart and orders them. -/
def Packet.key (p : Packet) : Fin 8 × ℕ := (p.fragId, p.uid)

/-- A burst takes packets from the front of the queue. -/
theorem removed_append_fill (q : List Packet) (next : Fin 8 → BitVec 8) (bs : BitVec 32) :
    (Sender.removed q bs ++ (Sender.fill q next bs).1.1).map Packet.key = q.map Packet.key := by
  induction q generalizing next bs with
  | nil => rfl
  | cons p q ih =>
      unfold Sender.fill Sender.removed
      split_ifs with large more
      · simp [Packet.key]
      · simp only [List.cons_append, List.map_cons, ih]
      · simp

theorem before_of_key {a b c d : Packet} (first : a.key = c.key) (second : b.key = d.key)
    (h : Before a b) : Before c d := by
  obtain ⟨frag, uid⟩ := Prod.mk.inj first
  obtain ⟨frag', uid'⟩ := Prod.mk.inj second
  simpa only [Before, frag, uid, frag', uid'] using h

theorem pairwise_of_keys {xs ys : List Packet} (same : xs.map Packet.key = ys.map Packet.key)
    (h : xs.Pairwise Before) : ys.Pairwise Before := by
  have iff : ∀ zs : List Packet, zs.Pairwise Before ↔ (zs.map Packet.key).Pairwise
      fun a b => a.2 ≠ b.2 ∧ (a.1 = b.1 → a.2 < b.2) := by
    intro zs
    rw [List.pairwise_map]
    rfl
  rw [iff, ← same, ← iff]
  exact h

/-- Queueing keeps the order of arrival within a priority. -/
theorem before_enque {w : Wire} (h : Ready s w) (ordered : s.queue.Pairwise Before) (macDA : ℤ)
    (prio : Fin 8) (size : BitVec 32) :
    (enque (initPacket s.arrived macDA prio size) s.queue).Pairwise Before := by
  obtain ⟨l, r, split, result, small, large⟩ :=
    enque_spec (initPacket s.arrived macDA prio size) h.sorted
  have waiting := h.waiting
  rw [split] at ordered waiting
  rw [result]
  apply StableQueue.pairwise_insert ordered
  · intro a ha
    have old := waiting a (List.mem_append_left r ha)
    exact ⟨old.ne, fun _ => old⟩
  · intro b hb
    have old := waiting b (List.mem_append_right l hb)
    exact ⟨old.ne', fun same => absurd same (large b hb).ne⟩

/-- Packets leave the queue one by one, those of a priority in the order of their
arrival, and each is one that waited or came later. -/
theorem taken_before {w : Wire} (h : Ready s w) (ordered : s.queue.Pairwise Before)
    (es : List SenderEvent) : (s.taken es).Pairwise Before ∧
      ∀ p ∈ s.taken es, p.key ∈ s.queue.map Packet.key ∨ s.arrived ≤ p.uid := by
  induction es generalizing s w with
  | nil => exact ⟨.nil, by simp [Sender.taken]⟩
  | cons e es ih =>
      obtain ⟨w', -, ready⟩ := h.step e
      cases e with
      | recv macDA prio size =>
          obtain ⟨pairs, origin⟩ := ih ready (before_enque h ordered macDA prio size)
          refine ⟨pairs, fun p hp => ?_⟩
          obtain queued | later := origin p hp
          · obtain ⟨a, mem, same⟩ := List.mem_map.mp queued
            obtain rfl | old := mem_of_mem_enque mem
            · exact .inr (Prod.mk.inj same).2.le
            · exact .inl (same ▸ List.mem_map_of_mem old)
          · exact .inr (Nat.le_of_succ_le later)
      | slot size =>
          have keys := removed_append_fill s.queue s.next size
          have both := pairwise_of_keys keys.symm ordered
          obtain ⟨first, rest, across⟩ := List.pairwise_append.mp both
          obtain ⟨pairs, origin⟩ := ih ready rest
          refine ⟨List.pairwise_append.mpr ⟨first, pairs, fun a ha b hb => ?_⟩, fun p hp => ?_⟩
          · obtain queued | later := origin b hb
            · obtain ⟨c, mem, same⟩ := List.mem_map.mp queued
              exact before_of_key rfl same (across a ha c mem)
            · have waits : a.key ∈ s.queue.map Packet.key :=
                keys ▸ List.mem_map_of_mem (List.mem_append_left _ ha)
              obtain ⟨c, mem, same⟩ := List.mem_map.mp waits
              have earlier : a.uid < b.uid :=
                (Prod.mk.inj same).2 ▸ (h.waiting c mem).trans_le later
              exact ⟨earlier.ne, fun _ => earlier⟩
          · rw [← keys]
            obtain now | later := List.mem_append.mp hp
            · exact .inl (List.mem_map_of_mem (List.mem_append_left _ now))
            · refine (origin p later).imp (fun queued => ?_) id
              rw [List.map_append]
              exact List.mem_append_right _ queued

theorem label_macDA (p : Packet) : p.label.macDA = p.macDA := by
  unfold Packet.label
  split <;> rfl

/-- The fragments go where their packets go. -/
theorem fill_macDA (next : Fin 8 → BitVec 8) (bs : BitVec 32) (toUs : ∀ p ∈ q, p.macDA = index) :
    (∀ fh ∈ (Sender.fill q next bs).2, fh.alpdu.macDA = index) ∧
      ∀ p ∈ (Sender.fill q next bs).1.1, p.macDA = index := by
  induction q generalizing next bs with
  | nil => exact ⟨by simp [Sender.fill], by simp [Sender.fill]⟩
  | cons p q ih =>
      obtain ⟨own, others⟩ := List.forall_mem_cons.mp toUs
      unfold Sender.fill
      split_ifs with large more
      · refine ⟨List.forall_mem_cons.mpr ⟨(label_macDA p).trans own, by simp⟩, ?_⟩
        exact List.forall_mem_cons.mpr ⟨(label_macDA p).trans own, others⟩
      · obtain ⟨frags, left⟩ := ih (p.advance next) (bs - (p.psize + fhs)) others
        exact ⟨List.forall_mem_cons.mpr ⟨own, frags⟩, left⟩
      · exact ⟨List.forall_mem_cons.mpr ⟨own, by simp⟩, others⟩

theorem bursts_macDA {w : Wire} (h : Ready s w) (toUs : ∀ p ∈ s.queue, p.macDA = index)
    {es : List SenderEvent} (toOne : ToOne index es) :
    ∀ fh ∈ (s.bursts es).flatten, fh.alpdu.macDA = index := by
  induction es generalizing s w with
  | nil => simp [Sender.bursts]
  | cons e es ih =>
      obtain ⟨w', -, ready⟩ := h.step e
      have later : ToOne index es := fun macDA prio size mem =>
        toOne macDA prio size (List.mem_cons_of_mem e mem)
      rw [Sender.bursts, List.flatten_cons]
      refine List.forall_mem_append.mpr ?_
      cases e with
      | recv macDA prio size =>
          refine ⟨by simp [Sender.step], ih ready (fun p hp => ?_) later⟩
          obtain rfl | old := mem_of_mem_enque hp
          · exact toOne macDA prio size List.mem_cons_self
          · exact toUs p old
      | slot size =>
          obtain ⟨frags, left⟩ := fill_macDA s.next size toUs
          exact ⟨frags, ih ready left later⟩

end sender

/-- With one receiver and a channel that loses nothing, a packet is handed up exactly
when its last or whole fragment arrives. These packets are the ones that the sender
took out of its queue, each once, and those of one priority in the order in which
they were queued. -/
theorem round_trip (index : ℤ) (src : ℕ) (memory : Slot → Context AlPdu)
    (es : List SenderEvent) (toOne : ToOne index es) :
    (∀ xs ys, (Sender.init.bursts es).flatten = xs ++ ys → ∃ r,
        run (Receiver.recvFrag index src) (Receiver.init memory) xs = some r ∧
          r.up = completed xs) ∧
      (∃ r, run (Receiver.sendUp index src) (Receiver.init memory) (Sender.init.bursts es) =
          some r ∧ r.up = (Sender.init.taken es).map Packet.toAlPdu) ∧
      (Sender.init.taken es).Pairwise Before := by
  obtain ⟨w, legal⟩ := bursts_legal es
  have toUs : ∀ fh ∈ (Sender.init.bursts es).flatten, fh.alpdu.macDA = index :=
    bursts_macDA ready_init (by simp [Sender.init]) toOne
  refine ⟨fun xs ys split => ?_, ?_, (taken_before ready_init .nil es).1⟩
  · rw [split] at legal toUs
    obtain ⟨w₀, before, -⟩ := legal.prefix
    obtain ⟨r, reach, -, -, up⟩ := deliver_run index src memory before
      fun fh mem => toUs fh (List.mem_append_left ys mem)
    exact ⟨r, reach, up⟩
  · obtain ⟨r, reach, -, -, up⟩ := deliver_run index src memory legal toUs
    refine ⟨r, ?_, ?_⟩
    · rw [Receiver.run_sendUp, reach]
    · rw [up, completed_bursts]

/-- Two packets are cut into four bursts and put together again. -/
theorem round_trip_two :
    ∃ r, run (Receiver.sendUp 1 0) (Receiver.init fun _ => Context.zero)
        (Sender.init.bursts [.urgent 1 20, .slot 12, .urgent 1 30, .slot 20, .slot 9, .slot 40]) =
      some r ∧ r.up = [⟨0, 1, 23⟩, ⟨1, 1, 33⟩] := by
  refine (round_trip 1 0 _ _ ?_).2.1
  rintro macDA prio size mem
  simp [SenderEvent.urgent] at mem
  obtain ⟨rfl, -⟩ | ⟨rfl, -⟩ := mem <;> rfl

end Mftdma.Rle
