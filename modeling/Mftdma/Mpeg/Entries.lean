import Mftdma.Mpeg.Cells

/-!
# The entries of a payload

`insert_frag` writes behind the last entry of the arrays of a payload and does not ask
whether they end there. A packet that opens a cell writes the first entry of each new
payload, and every other packet writes one entry more into the payload that the member
`payload` points to, whatever cell it is for. So only the first call for a packet can
find the arrays full, and the entries of the current payload are the packets from the
last one on that a cell was opened for.
-/

namespace Mftdma.Mpeg

open Execution

/-- The payload that `insert_frag` is called on has an entry left. `send_frags` calls it
once each time it comes to the head of its loop. -/
def Packing.EntryLeft (a : Packing) : Prop := (a.ll.heap a.ll.payload).length < maxFrags

namespace MpegLL

/-- There is an open cell for the next hop of the packet. -/
def FindsOpen (s : MpegLL) (p : Packet) : Prop :=
  ∃ q ∈ getQueue s.txAddrs p.nextHop, ∃ c, c ∈ s.txBuffer q

/-- No cell is open for the next hop of the packet, or what is left of it is too small:
`send_frags` opens one. -/
def Opens (s : MpegLL) (p : Packet) : Prop :=
  ∀ q ∈ getQueue s.txAddrs p.nextHop, ∀ c ∈ s.txBuffer q, c.dvbSpace < p.encapsulate.size

/-- `payload` points to a payload with an entry left when a packet finds its cell open. -/
def FindsEntry (s : MpegLL) : Event → Prop
  | .send p => s.FindsOpen p → (s.heap s.payload).length < maxFrags
  | _ => True

/-- All entries of payloads are in their arrays. -/
def Inside (s : MpegLL) : Prop := ∀ i, (s.heap i).length ≤ maxFrags

instance (s : MpegLL) (p : Packet) : Decidable (s.FindsOpen p) :=
  decidable_of_iff (∃ q ∈ getQueue s.txAddrs p.nextHop, (s.txBuffer q).isSome = true) <|
    exists_congr fun _ => and_congr_right fun _ => Option.isSome_iff_exists

instance (s : MpegLL) (p : Packet) : Decidable (s.Opens p) :=
  inferInstanceAs (Decidable (∀ q ∈ getQueue s.txAddrs p.nextHop,
    ∀ c ∈ s.txBuffer q, c.dvbSpace < p.encapsulate.size))

instance (s : MpegLL) : ∀ e, Decidable (s.FindsEntry e)
  | .send p => inferInstanceAs
      (Decidable (s.FindsOpen p → (s.heap s.payload).length < maxFrags))
  | .timer _ => isTrue trivial
  | .receive _ _ => isTrue trivial

end MpegLL

open MpegLL

namespace Packing

variable {a b : Packing} {s : MpegLL} {q : Slot} {c : Cell} {p : Packet} {id i k : ℕ}

theorem new_payload_empty : ((fill id p q).body a).ll.heap ((fill id p q).body a).ll.payload = [] :=
  Function.update_self ..

theorem start_payload_empty (empty : s.txBuffer q = none) :
    (start id s p q).ll.heap (start id s p q).ll.payload = [] := by
  rw [start_of_none empty]
  exact Function.update_self ..

@[simp] theorem start_sent : (start id s p q).ll.sent = s.sent := by
  cases held : s.txBuffer q with
  | some c => rw [start_of_some held]
  | none =>
      rw [start_of_none held]
      rfl

theorem fresh_le_visits (visited : (fill id p q).Visits a b) : a.ll.fresh ≤ b.ll.fresh :=
  visited.invariant (I := fun b => a.ll.fresh ≤ b.ll.fresh) le_rfl
    fun _ _ older _ => older.trans (Nat.le_succ _)

/-- The loop is where it began, or at a payload that has just been made for its cell. -/
theorem start_or_new (visited : (fill id p q).Visits a b) :
    b = a ∨ b.ll.heap b.ll.payload = [] ∧ b.cell.payload = b.ll.payload ∧
      a.ll.fresh ≤ b.ll.payload := by
  cases visited with
  | entry => exact .inl rfl
  | pass before _ => exact .inr ⟨new_payload_empty, rfl, fresh_le_visits before⟩

theorem entryLeft_of_empty (empty : a.ll.heap a.ll.payload = []) : a.EntryLeft := by
  rw [EntryLeft, empty]
  exact Nat.succ_pos _

/-- Only the first call of `insert_frag` can find the arrays full. -/
theorem entryLeft_of_first (visited : (fill id p q).Visits (start id s p q) b)
    (left : ∀ c, s.txBuffer q = some c → (s.heap s.payload).length < maxFrags) :
    b.EntryLeft := by
  obtain rfl | ⟨empty, -⟩ := start_or_new visited
  · cases held : s.txBuffer q with
    | some c =>
        rw [EntryLeft, start_of_some held]
        exact left c held
    | none => exact entryLeft_of_empty (start_payload_empty held)
  · exact entryLeft_of_empty empty

theorem length_insertFrag_le (s : MpegLL) (p : Packet) (fsize i : ℕ) :
    (s.heap i).length ≤ ((s.insertFrag p fsize).heap i).length := by
  by_cases here : i = s.payload
  · rw [here, insertFrag_heap_self, List.length_append]
    exact Nat.le_add_right _ _
  · rw [insertFrag_heap_of_ne here]

theorem finish_heap : (a.finish p q).heap = (a.ll.insertFrag p a.psize).heap := by
  rw [finish]
  split_ifs <;> rfl

theorem finish_payload : (a.finish p q).payload = a.ll.payload := by
  rw [finish]
  split_ifs <;> rfl

theorem finish_fresh : (a.finish p q).fresh = a.ll.fresh := by
  rw [finish]
  split_ifs <;> rfl

theorem mem_finish_sent (sent : c ∈ a.ll.sent) : c ∈ (a.finish p q).sent := by
  rw [finish]
  split_ifs
  · exact List.mem_append_left _ sent
  · exact sent

/-- The payloads that there are when a packet comes do not lose entries. -/
theorem length_le_visits (visited : (fill id p q).Visits (start id s p q) b) (hi : i < s.fresh) :
    (s.heap i).length ≤ (b.ll.heap i).length := by
  apply And.right
  apply visited.invariant (I := fun b =>
    s.fresh ≤ b.ll.fresh ∧ (s.heap i).length ≤ (b.ll.heap i).length)
  · refine ⟨fresh_le_start, ?_⟩
    cases held : s.txBuffer q with
    | some c => rw [start_of_some held]
    | none =>
        rw [start_of_none held]
        exact (congrArg List.length (Function.update_of_ne hi.ne _ _)).ge
  · rintro b - ⟨older, entries⟩ -
    have apart : i ≠ b.ll.fresh := (hi.trans_le older).ne
    have kept : ((fill id p q).body b).ll.heap i =
        (b.ll.insertFrag p b.cell.dvbSpace).heap i := Function.update_of_ne apart _ _
    refine ⟨older.trans (Nat.le_succ _), ?_⟩
    rw [kept]
    exact entries.trans (length_insertFrag_le ..)

/-- The packet puts an entry into the payload that is current when it finds its cell open. -/
theorem entries_of_open (placed : s.Placed) (held : s.txBuffer q = some c)
    (filled : (fill id p q).exec k (start id s p q) = some a) :
    (s.heap s.payload).length < ((a.finish p q).heap s.payload).length := by
  rw [finish_heap]
  obtain ⟨-, rfl | ⟨-, passed⟩⟩ := fill_exit filled
  · rw [start_of_some held]
    show _ < ((s.insertFrag _ _).heap s.payload).length
    rw [insertFrag_heap_self, List.length_append]
    exact Nat.lt_succ_self _
  · rw [start_of_some held] at passed
    have first := passed.heap s.payload placed.current
    apply lt_of_lt_of_le _ (length_insertFrag_le ..)
    rw [first]
    show _ < ((s.insertFrag _ _).heap s.payload).length
    rw [insertFrag_heap_self, List.length_append]
    exact Nat.lt_succ_self _

/-- A packet writes the first entry of a new payload, or one more into the current one. -/
theorem finish_entries (filled : (fill id p q).exec k (start id s p q) = some a) :
    ((a.finish p q).heap (a.finish p q).payload).length =
      if ∀ c ∈ s.txBuffer q, c.dvbSpace < p.size then 1 else (s.heap s.payload).length + 1 := by
  have written : ((a.finish p q).heap (a.finish p q).payload).length =
      (a.ll.heap a.ll.payload).length + 1 := by
    rw [finish_heap, finish_payload, insertFrag_heap_self, List.length_append]
    rfl
  obtain ⟨fits, rfl | ⟨long, passed⟩⟩ := fill_exit filled
  · cases held : s.txBuffer q with
    | some c =>
        rw [start_of_some held] at fits
        have room : ¬ ∀ d ∈ Option.some c, d.dvbSpace < p.size :=
          fun small => Nat.not_lt_of_le fits (small c rfl)
        rw [if_neg room, written, start_of_some held]
    | none =>
        have opened : ∀ d ∈ (none : Option Cell), d.dvbSpace < p.size := fun _ hd => by cases hd
        rw [if_pos opened, written, start_payload_empty held]
        rfl
  · have small : ∀ c ∈ s.txBuffer q, c.dvbSpace < p.size := by
      intro c held
      rwa [start_of_some held] at long
    rw [if_pos small, written]
    obtain ⟨visited, -⟩ := Loop.returns_iff.mp ⟨k, filled⟩
    obtain rfl | ⟨empty, -⟩ := start_or_new visited
    · exact absurd passed.fresh (Nat.not_lt_of_le passed.payload)
    · rw [empty]
      rfl

end Packing

namespace MpegLL

variable {s t : MpegLL} {p : Packet} {id i : ℕ} {e : Event}

theorem findsEntry_send (found : s.FindsEntry (.send p)) {q : Slot}
    (looked : getQueue s.txAddrs p.nextHop = some q) (c : Cell) (held : s.txBuffer q = some c) :
    (s.heap s.payload).length < maxFrags :=
  found ⟨q, looked, c, held⟩

theorem inside_init : init.Inside := fun _ => Nat.zero_le _

theorem Inside.insertFrag {s : MpegLL} (inside : s.Inside)
    (left : (s.heap s.payload).length < maxFrags) (p : Packet) (fsize : ℕ) :
    (s.insertFrag p fsize).Inside := by
  intro i
  by_cases here : i = s.payload
  · rw [here, Packing.insertFrag_heap_self, List.length_append]
    exact left
  · rw [Packing.insertFrag_heap_of_ne here]
    exact inside i

theorem Inside.newDvb {s : MpegLL} (inside : s.Inside) (id : ℕ) (q : Slot) :
    (s.newDvb id q).2.Inside := by
  intro i
  show (Function.update s.heap s.fresh [] i).length ≤ maxFrags
  by_cases new : i = s.fresh
  · rw [new, Function.update_self]
    exact Nat.zero_le _
  · rw [Function.update_of_ne new]
    exact inside i

/-- A step in which no packet finds the arrays full leaves all entries inside them. -/
theorem Inside.step (inside : s.Inside) (found : s.FindsEntry e)
    (stepped : Mpeg.step id s e = some t) : t.Inside := by
  cases e with
  | send p =>
      obtain ⟨q, a, looked, filled, rfl⟩ := sendFrags_eq_some.mp stepped
      obtain ⟨visited, -⟩ := Loop.returns_iff.mp ⟨_, filled⟩
      have left : ∀ b, (Packing.fill id p.encapsulate q).Visits
          (Packing.start id s p.encapsulate q) b → b.EntryLeft :=
        fun b before => Packing.entryLeft_of_first before (findsEntry_send found looked)
      have filling : a.ll.Inside := by
        apply visited.invariant (I := fun b => b.ll.Inside)
        · cases held : s.txBuffer q with
          | some c =>
              rw [Packing.start_of_some held]
              exact inside
          | none =>
              rw [Packing.start_of_none held]
              exact inside.newDvb id q
        · intro b before inside _
          exact (inside.insertFrag (left b before) p.encapsulate _).newDvb id q
      intro i
      rw [Packing.finish_heap]
      exact filling.insertFrag (left a visited) p.encapsulate a.psize i
  | timer q =>
      obtain ⟨c, -, fired⟩ := Option.bind_eq_some_iff.mp stepped
      split_ifs at fired
      obtain ⟨d, -, rfl⟩ := Option.map_eq_some_iff.mp fired
      exact inside
  | receive pid frags =>
      obtain ⟨q, -, rfl⟩ := Option.map_eq_some_iff.mp stepped
      exact inside

theorem mem_sent_of_step {c : Cell} (stepped : Mpeg.step id s e = some t) (sent : c ∈ s.sent) :
    c ∈ t.sent := by
  cases e with
  | send p =>
      obtain ⟨q, a, -, filled, rfl⟩ := sendFrags_eq_some.mp stepped
      apply Packing.mem_finish_sent
      obtain ⟨-, rfl | ⟨-, passed⟩⟩ := Packing.fill_exit filled
      · rwa [Packing.start_sent]
      · apply passed.sent
        rwa [Packing.start_sent]
  | timer q =>
      obtain ⟨c, -, fired⟩ := Option.bind_eq_some_iff.mp stepped
      split_ifs at fired
      obtain ⟨d, -, rfl⟩ := Option.map_eq_some_iff.mp fired
      exact List.mem_append_left _ sent
  | receive pid frags =>
      obtain ⟨q, -, rfl⟩ := Option.map_eq_some_iff.mp stepped
      exact sent

/-- The payloads that there are do not lose entries in a step. -/
theorem length_le_of_step (stepped : Mpeg.step id s e = some t) (hi : i < s.fresh) :
    (s.heap i).length ≤ (t.heap i).length ∧ s.fresh ≤ t.fresh := by
  cases e with
  | send p =>
      obtain ⟨q, a, -, filled, rfl⟩ := sendFrags_eq_some.mp stepped
      obtain ⟨visited, -⟩ := Loop.returns_iff.mp ⟨_, filled⟩
      rw [Packing.finish_heap, Packing.finish_fresh]
      exact ⟨(Packing.length_le_visits visited hi).trans (Packing.length_insertFrag_le ..),
        Packing.fresh_le_start.trans (Packing.fresh_le_visits visited)⟩
  | timer q =>
      obtain ⟨c, -, fired⟩ := Option.bind_eq_some_iff.mp stepped
      split_ifs at fired
      obtain ⟨d, -, rfl⟩ := Option.map_eq_some_iff.mp fired
      exact ⟨le_rfl, le_rfl⟩
  | receive pid frags =>
      obtain ⟨q, -, rfl⟩ := Option.map_eq_some_iff.mp stepped
      exact ⟨le_rfl, le_rfl⟩

end MpegLL

end Mftdma.Mpeg
