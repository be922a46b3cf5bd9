import Mathlib.Data.List.Induction
import Mftdma.Mpeg.Cells

/-!
# What a sender emits for one destination

With one next hop there is one open cell at a time, and `payload` always points to
the payload of the latest one. `line` is all that was put into payloads, the cells
sent first and the open cell last; `send_frags` appends the fragments of its packet
to it and a timer leaves it as it is, which `sender_run` carries over a run.
-/

namespace Mftdma.Mpeg

open Execution

/-- The fragments of a packet: none is empty, and together they have its size. -/
structure Cut (p : Packet) (frags : List Frag) : Prop where
  nonempty : frags ≠ []
  own : ∀ f ∈ frags, f.packet = p ∧ 0 < f.size
  total : bytes frags = p.size

/-- What comes to a station that only sends to the next hop `d`: a packet for it, or a
timer that runs. -/
def Comes (d : ℕ) (s : MpegLL) : Event → Prop
  | .send p => p.nextHop = d
  | .timer q => ∃ c ∈ s.txBuffer q, c.status = true
  | .receive _ _ => False

instance (d : ℕ) (s : MpegLL) : ∀ e, Decidable (Comes d s e)
  | .send p => inferInstanceAs (Decidable (p.nextHop = d))
  | .timer q => inferInstanceAs (Decidable (∃ c ∈ s.txBuffer q, c.status = true))
  | .receive _ _ => isFalse not_false

/-- The packet that an event brings from above. -/
def Event.packet : Event → Option Packet
  | .send p => some p
  | _ => none

def packetsOf (es : List Event) : List Packet := es.filterMap Event.packet

namespace MpegLL

/-- A cell as it arrives below: its `pid_` and its fragments. -/
def wireCell (s : MpegLL) (c : Cell) : ℕ × List Frag := (c.pid, s.heap c.payload)

/-- The fragments in the open cell of a slot. -/
def openFrags (s : MpegLL) (q : Slot) : List Frag :=
  (s.txBuffer q).elim [] fun c => s.heap c.payload

/-- The fragments in the cells sent, and in the open one. -/
def line (s : MpegLL) (q : Slot) : List Frag :=
  (s.sent.map fun c => s.heap c.payload).flatten ++ s.openFrags q

/-- The cells that the step from `s` to `t` has handed to `sendDown`. -/
def emittedBy (s t : MpegLL) : List (ℕ × List Frag) :=
  (t.sent.drop s.sent.length).map t.wireCell

/-- The cells that a run emits. -/
def emitted (id : ℕ) : MpegLL → List Event → List (ℕ × List Frag)
  | _, [] => []
  | s, e :: es => (step id s e).elim [] fun t => s.emittedBy t ++ emitted id t es

/-- A station that only ever sends to the next hop `d`. -/
structure Single (id d : ℕ) (s : MpegLL) : Prop where
  placed : s.Placed
  only : ∀ l, l ≠ home d → s.txBuffer l = none
  own : ∀ c, s.txBuffer (home d) = some c → c.addr = d ∧ c.payload = s.payload
  pid : ∀ c, s.Carries c → c.pid = id

/-- The cells sent stay as they are, and `cut` is put behind what was there. -/
structure Grows (q : Slot) (s : MpegLL) (cut : List Frag) (t : MpegLL) : Prop where
  sent : ∃ more, t.sent = s.sent ++ more
  kept : ∀ c ∈ s.sent, t.heap c.payload = s.heap c.payload
  line : t.line q = s.line q ++ cut

variable {s t u : MpegLL} {q : Slot} {c e : Cell} {p : Packet} {id d : ℕ} {cut cut' : List Frag}

theorem Grows.trans (first : Grows q s cut t) (second : Grows q t cut' u) :
    Grows q s (cut ++ cut') u := by
  obtain ⟨more, sent⟩ := first.sent
  obtain ⟨more', sent'⟩ := second.sent
  refine ⟨⟨more ++ more', by rw [sent', sent, List.append_assoc]⟩, fun c hc => ?_, ?_⟩
  · have later : c ∈ t.sent := by
      rw [sent]
      exact List.mem_append_left _ hc
    rw [second.kept c later, first.kept c hc]
  · rw [second.line, first.line, List.append_assoc]

/-- Nothing is put into a payload, and the cells sent keep theirs. -/
theorem Grows.of_line (sent : ∃ more, t.sent = s.sent ++ more)
    (kept : ∀ c ∈ s.sent, t.heap c.payload = s.heap c.payload) (line : t.line q = s.line q) :
    Grows q s [] t :=
  ⟨sent, kept, by rw [line, List.append_nil]⟩

theorem map_frags_congr {cells : List Cell}
    (kept : ∀ c ∈ cells, t.heap c.payload = s.heap c.payload) :
    (cells.map fun c => t.heap c.payload) = cells.map fun c => s.heap c.payload :=
  List.map_congr_left kept

theorem openFrags_of_some (held : s.txBuffer q = some c) : s.openFrags q = s.heap c.payload := by
  rw [openFrags, held]
  rfl

theorem openFrags_of_none (empty : s.txBuffer q = none) : s.openFrags q = [] := by
  rw [openFrags, empty]
  rfl

namespace Single

/-- Inserting puts the fragment behind everything else. -/
theorem insertFrag (h : Single id d s) (held : s.txBuffer (home d) = some c) (p : Packet)
    (fsize : ℕ) :
    Single id d (s.insertFrag p fsize) ∧
      Grows (home d) s [⟨p, fsize⟩] (s.insertFrag p fsize) := by
  have current : c.payload = s.payload := (h.own c held).2
  have kept : ∀ e ∈ s.sent, (s.insertFrag p fsize).heap e.payload = s.heap e.payload := by
    intro e he
    apply Packing.insertFrag_heap_of_ne
    rw [← current]
    exact h.placed.alone _ c held e (.inr he)
  refine ⟨⟨h.placed.insertFrag p fsize, h.only, h.own, h.pid⟩, ⟨[], (List.append_nil _).symm⟩,
    kept, ?_⟩
  have here : (s.insertFrag p fsize).txBuffer (home d) = some c := held
  have new : (s.insertFrag p fsize).heap c.payload = s.heap c.payload ++ [⟨p, fsize⟩] := by
    rw [current]
    exact Packing.insertFrag_heap_self s p fsize
  have sent : (s.insertFrag p fsize).sent = s.sent := rfl
  rw [line, line, openFrags_of_some here, openFrags_of_some held, sent, map_frags_congr kept, new,
    List.append_assoc]

/-- Sending the open cell moves the border between it and the cells sent. -/
theorem retire (h : Single id d s) (held : s.txBuffer (home d) = some c)
    (same : e.payload = c.payload) (pid : e.pid = c.pid) :
    Single id d ((s.sendDown e).store (home d) none) ∧
      Grows (home d) s [] ((s.sendDown e).store (home d) none) := by
  have none : ((s.sendDown e).store (home d) none).txBuffer (home d) = none := store_self ..
  refine ⟨⟨h.placed.retire held same, fun l hl => ?_, fun f hf => ?_, fun f hf => ?_⟩,
    .of_line ⟨[e], rfl⟩ (fun _ _ => rfl) ?_⟩
  · rw [store_of_ne hl]
    exact h.only l hl
  · rw [none] at hf
    cases hf
  · obtain rfl | other := carries_retire.mp hf
    · rw [pid]
      exact h.pid c (carries_of_txBuffer held)
    · exact h.pid f other.carries
  · rw [line, line, openFrags_of_none none, openFrags_of_some held]
    show ((s.sent ++ [e]).map fun c => s.heap c.payload).flatten ++ [] = _
    rw [List.map_append, List.flatten_append, List.append_nil, ← same]
    simp

/-- A new cell is empty. -/
theorem newDvb (h : Single id d s) (empty : s.txBuffer (home d) = none) (new : e.payload = s.fresh)
    (queue : e.queue = home d) (room : uleHdr ≤ e.dvbSpace) (addr : e.addr = d) (pid : e.pid = id) :
    Single id d ((s.newDvb id (home d)).2.store (home d) (some e)) ∧
      Grows (home d) s [] ((s.newDvb id (home d)).2.store (home d) (some e)) := by
  have here : ((s.newDvb id (home d)).2.store (home d) (some e)).txBuffer (home d) = some e :=
    store_self ..
  have kept : ∀ c ∈ s.sent,
      ((s.newDvb id (home d)).2.store (home d) (some e)).heap c.payload = s.heap c.payload :=
    fun c hc => Function.update_of_ne (h.placed.made c (.inr hc)).ne _ _
  refine ⟨⟨h.placed.open id new queue room, fun l hl => ?_, fun f hf => ?_, fun f hf => ?_⟩,
    .of_line ⟨[], (List.append_nil _).symm⟩ kept ?_⟩
  · rw [store_of_ne hl]
    exact h.only l hl
  · rw [here] at hf
    obtain rfl := Option.some.inj hf
    exact ⟨addr, new⟩
  · obtain rfl | other := carries_store.mp hf
    · exact pid
    · exact h.pid f (Others.carries other)
  · have blank : ((s.newDvb id (home d)).2.store (home d) (some e)).heap e.payload = [] := by
      rw [new]
      exact Function.update_self ..
    have sent : ((s.newDvb id (home d)).2.store (home d) (some e)).sent = s.sent := rfl
    rw [line, line, openFrags_of_none empty, openFrags_of_some here, blank, sent,
      map_frags_congr kept]

/-- The header of the open cell is written. -/
theorem rewrite (h : Single id d s) (held : s.txBuffer (home d) = some c)
    (same : e.payload = c.payload) (queue : e.queue = home d) (room : uleHdr ≤ e.dvbSpace)
    (addr : e.addr = d) (pid : e.pid = c.pid) :
    Single id d (s.store (home d) (some e)) ∧
      Grows (home d) s [] (s.store (home d) (some e)) := by
  have here : (s.store (home d) (some e)).txBuffer (home d) = some e := store_self ..
  refine ⟨⟨h.placed.rewrite held same queue room, fun l hl => ?_, fun f hf => ?_, fun f hf => ?_⟩,
    .of_line ⟨[], (List.append_nil _).symm⟩ (fun _ _ => rfl) ?_⟩
  · rw [store_of_ne hl]
    exact h.only l hl
  · rw [here] at hf
    obtain rfl := Option.some.inj hf
    exact ⟨addr, same.trans (h.own c held).2⟩
  · obtain rfl | other := carries_store.mp hf
    · rw [pid]
      exact h.pid c (carries_of_txBuffer held)
    · exact h.pid f other.carries
  · rw [line, line, openFrags_of_some held, openFrags_of_some here, same]
    rfl

end Single

end MpegLL

namespace Packing

open MpegLL

variable {a b : Packing} {s : MpegLL} {p : Packet} {id d : ℕ} {cut : List Frag}

theorem hold_pass (q : Slot) : ((fill id p q).body a).hold q =
    ((((a.hold q).insertFrag p a.cell.dvbSpace).sendDown a.cell).store q none
      |>.newDvb id q).2.store q (some ((fill id p q).body a).cell) := by
  simp [hold, store, newDvb, fill, MpegLL.insertFrag, sendDown]

theorem finish_eq (q : Slot) : a.finish p q =
    if a.closing.dvbSpace < a.closing.reserve then
      (((a.hold q).insertFrag p a.psize).sendDown a.closing).store q none
    else ((a.hold q).insertFrag p a.psize).store q (some { a.closing with status := true }) := by
  rw [finish]
  split_ifs <;> simp [hold, store, MpegLL.insertFrag, sendDown]

/-- `send_frags` has put `cut` behind `s` and has `psize` bytes of the packet left. -/
structure Filling (id d : ℕ) (s : MpegLL) (p : Packet) (a : Packing) (cut : List Frag) :
    Prop where
  single : Single id d (a.hold (home d))
  grows : Grows (home d) s cut (a.hold (home d))
  own : ∀ f ∈ cut, f.packet = p ∧ 0 < f.size
  total : bytes cut + a.psize = p.size
  pos : 0 < a.psize

theorem filling_start (h : Single id d s) (hop : p.nextHop = d) (pos : 0 < p.size) :
    Filling id d s p (start id s p (home d)) [] := by
  have moved : Single id d ((start id s p (home d)).hold (home d)) ∧
      Grows (home d) s [] ((start id s p (home d)).hold (home d)) := by
    cases held : s.txBuffer (home d) with
    | some c =>
        rw [start_of_some held]
        exact h.rewrite held rfl (h.placed.queue _ c held) (h.placed.room _ c held) hop rfl
    | none =>
        rw [start_of_none held]
        have room : uleHdr ≤ 183 := by decide
        exact h.newDvb held rfl rfl room hop rfl
  refine ⟨moved.1, moved.2, by simp, ?_, ?_⟩
  · rw [start_psize]
    exact Nat.zero_add _
  · rwa [start_psize]

theorem Filling.pass (h : Filling id d s p a cut) (hop : p.nextHop = d)
    (guard : a.cell.dvbSpace < a.psize) :
    Filling id d s p ((fill id p (home d)).body a) (cut ++ [⟨p, a.cell.dvbSpace⟩]) := by
  have here : (a.hold (home d)).txBuffer (home d) = some a.cell := store_self a.ll _ _
  have room : 4 ≤ a.cell.dvbSpace := h.single.placed.room _ a.cell here
  obtain ⟨inserted, grown⟩ := h.single.insertFrag here p a.cell.dvbSpace
  obtain ⟨sent, moved⟩ := inserted.retire here rfl rfl
  have new : uleHdr ≤ 184 := by decide
  obtain ⟨opened, blank⟩ := sent.newDvb (store_self _ _ none)
    (e := ((fill id p (home d)).body a).cell) rfl rfl new hop rfl
  rw [← hold_pass] at opened blank
  refine ⟨opened, ?_, fun f hf => ?_, ?_, Nat.sub_pos_of_lt guard⟩
  · simpa using h.grows.trans (grown.trans (moved.trans blank))
  · obtain old | same := List.mem_append.mp hf
    · exact h.own f old
    · obtain rfl := List.mem_singleton.mp same
      exact ⟨rfl, Nat.lt_of_lt_of_le (by decide : 0 < 4) room⟩
  · have total := h.total
    rw [bytes_snoc]
    show bytes cut + a.cell.dvbSpace + (a.psize - a.cell.dvbSpace) = p.size
    omega

theorem Filling.finish (h : Filling id d s p a cut) :
    Single id d (a.finish p (home d)) ∧
      Grows (home d) s (cut ++ [⟨p, a.psize⟩]) (a.finish p (home d)) ∧
      Cut p (cut ++ [⟨p, a.psize⟩]) := by
  have here : (a.hold (home d)).txBuffer (home d) = some a.cell := store_self a.ll _ _
  obtain ⟨inserted, grown⟩ := h.single.insertFrag here p a.psize
  have done : Cut p (cut ++ [⟨p, a.psize⟩]) := by
    refine ⟨by simp, fun f hf => ?_, ?_⟩
    · obtain old | same := List.mem_append.mp hf
      · exact h.own f old
      · obtain rfl := List.mem_singleton.mp same
        exact ⟨rfl, h.pos⟩
    · rw [bytes_snoc]
      exact h.total
  rw [finish_eq]
  split_ifs with full
  · obtain ⟨sent, moved⟩ := inserted.retire here (e := a.closing) rfl rfl
    exact ⟨sent, by simpa using h.grows.trans (grown.trans moved), done⟩
  · have queue : a.closing.queue = home d := h.single.placed.queue _ a.cell here
    have room : uleHdr ≤ a.closing.dvbSpace :=
      (Nat.le_add_right _ _).trans (Nat.le_of_not_lt full)
    have addr : a.closing.addr = d := (h.single.own a.cell here).1
    obtain ⟨kept, moved⟩ := inserted.rewrite here (e := { a.closing with status := true }) rfl
      queue room addr rfl
    exact ⟨kept, by simpa using h.grows.trans (grown.trans moved), done⟩

end Packing

namespace MpegLL

variable {s t : MpegLL} {p : Packet} {id d : ℕ} {e : Event}

/-- The search for the only hop ends at its home slot. -/
theorem Single.getQueue (h : Single id d s) : Mpeg.getQueue s.txAddrs d = some (home d) := by
  apply Probing.lookup_home
  intro b hb
  obtain ⟨c, held, rfl⟩ := Option.map_eq_some_iff.mp hb
  exact (h.own c held).1

theorem single_init : Single id d init where
  placed := placed_init
  only _ _ := rfl
  own c h := by cases h
  pid c h := by
    obtain ⟨l, held⟩ | gone := h
    · cases held
    · cases gone

/-- No call of `send_frags` aborts, and a timer finds its cell. -/
theorem Single.exists_step (h : Single id d s) (comes : Comes d s e) :
    ∃ t, step id s e = some t := by
  cases e with
  | send p =>
      have hop : p.nextHop = d := comes
      apply exists_sendFrags h.placed (q := home d)
      rw [hop]
      exact h.getQueue
  | timer q =>
      obtain ⟨c, held, running⟩ := comes
      have slot : s.txBuffer c.queue = some c := by rwa [h.placed.queue q c held]
      have sent : s.handleTimer c = some ((s.sendDown c).store c.queue none) := by
        rw [handleTimer, slot]
        rfl
      exact ⟨_, Option.bind_eq_some_iff.mpr ⟨c, held, (if_pos running).trans sent⟩⟩
  | receive pid frags => exact absurd comes not_false

/-- A call of `send_frags` as a start and a finish with the loop between them. -/
theorem Single.exists_send (h : Single id d s) (comes : Comes d s (.send p))
    (sent : s.sendFrags id p = some t) : ∃ a,
      (Packing.fill id p.encapsulate (home d)).Visits
        (Packing.start id s p.encapsulate (home d)) a ∧
      a.psize ≤ a.cell.dvbSpace ∧ a.finish p.encapsulate (home d) = t := by
  have hop : p.nextHop = d := comes
  obtain ⟨q, a, looked, filled, rfl⟩ := sendFrags_eq_some.mp sent
  rw [hop] at looked
  obtain rfl := Option.some.inj (looked.symm.trans h.getQueue)
  obtain ⟨visited, exit⟩ := Loop.returns_iff.mp ⟨_, filled⟩
  exact ⟨a, visited, Nat.le_of_not_lt (of_decide_eq_false exit), rfl⟩

/-- Each cell that `send_frags` comes to is the only open one. -/
theorem Single.filling_of_visits (h : Single id d s) (comes : Comes d s (.send p)) {a : Packing}
    (visited : (Packing.fill id p.encapsulate (home d)).Visits
      (Packing.start id s p.encapsulate (home d)) a) :
    ∃ cut, Packing.Filling id d s p.encapsulate a cut := by
  have hop : p.encapsulate.nextHop = d := comes
  have pos : 0 < p.encapsulate.size := Nat.lt_add_left p.size (by decide)
  apply visited.invariant (I := fun b => ∃ cut, Packing.Filling id d s p.encapsulate b cut)
    ⟨[], Packing.filling_start h hop pos⟩
  rintro b _ ⟨cut, filling⟩ guard
  exact ⟨_, filling.pass hop (of_decide_eq_true guard)⟩

/-- The only timer is that of the cell of the only hop. -/
theorem Single.timer_eq_some (h : Single id d s) {q : Slot}
    (fired : Mpeg.step id s (.timer q) = some t) :
    ∃ c, s.txBuffer q = some c ∧ q = home d ∧ t = (s.sendDown c).store q none := by
  obtain ⟨c, held, rfl⟩ := MpegLL.timer_eq_some h.placed fired
  refine ⟨c, held, ?_, rfl⟩
  by_contra other
  rw [h.only q other] at held
  cases held

/-- The fragments that an event adds: those of a packet, or none. -/
def Adds (cut : List Frag) : Event → Prop
  | .send p => Cut p.encapsulate cut
  | _ => cut = []

theorem Single.step (h : Single id d s) (comes : Comes d s e) (stepped : step id s e = some t) :
    Single id d t ∧ ∃ cut, Grows (home d) s cut t ∧ Adds cut e := by
  cases e with
  | send p =>
      obtain ⟨a, visited, -, rfl⟩ := h.exists_send comes stepped
      obtain ⟨cut, filling⟩ := h.filling_of_visits comes visited
      obtain ⟨single, grows, done⟩ := filling.finish
      exact ⟨single, _, grows, done⟩
  | timer q =>
      obtain ⟨c, held, rfl, rfl⟩ := h.timer_eq_some stepped
      obtain ⟨single, grows⟩ := h.retire held rfl rfl
      exact ⟨single, [], grows, rfl⟩
  | receive pid frags => exact absurd comes not_false

theorem emitted_concat (id : ℕ) (s : MpegLL) (es : List Event) (e : Event) :
    emitted id s (es ++ [e]) = emitted id s es ++
      (run (step id) s es).elim [] fun m => (step id m e).elim [] fun t => m.emittedBy t := by
  induction es generalizing s with
  | nil =>
      show (Mpeg.step id s e).elim [] (fun t => s.emittedBy t ++ []) =
        [] ++ (Mpeg.step id s e).elim [] fun t => s.emittedBy t
      simp only [List.append_nil, List.nil_append]
  | cons e' es ih =>
      rw [List.cons_append, run_cons]
      show (Mpeg.step id s e').elim [] (fun t => s.emittedBy t ++ emitted id t (es ++ [e])) =
        (Mpeg.step id s e').elim [] (fun t => s.emittedBy t ++ emitted id t es) ++ _
      cases Mpeg.step id s e' with
      | none => rfl
      | some t => simpa using ih t

/-- What a run emits is what it has sent, and the fragments put into cells are those of the
packets, in order. -/
theorem sender_run {es : List Event} (comes : Along (step id) (Comes d) init es) :
    ∃ t, run (step id) init es = some t ∧ Single id d t ∧
      emitted id init es = t.sent.map t.wireCell ∧
      ∃ cuts, t.line (home d) = cuts.flatten ∧
        List.Forall₂ (fun p cut => Cut p.encapsulate cut) (packetsOf es) cuts := by
  induction es using List.reverseRecOn with
  | nil => exact ⟨init, rfl, single_init, rfl, [], rfl, .nil⟩
  | append_singleton es e ih =>
      obtain ⟨earlier, here⟩ := along_snoc_iff.mp comes
      obtain ⟨s, before, single, sent, cuts, line, cut⟩ := ih earlier
      obtain ⟨t, stepped⟩ := single.exists_step (here s before)
      obtain ⟨done, added, grows, adds⟩ := single.step (here s before) stepped
      refine ⟨t, run_snoc_eq_some.mpr ⟨s, before, stepped⟩, done, ?_, ?_⟩
      · obtain ⟨more, grown⟩ := grows.sent
        have old : s.sent.map t.wireCell = s.sent.map s.wireCell :=
          List.map_congr_left fun c hc => congrArg (Prod.mk c.pid) (grows.kept c hc)
        rw [emitted_concat, before, Option.elim_some, stepped, Option.elim_some, sent, emittedBy,
          grown, List.drop_left, List.map_append, old]
      · have packets : packetsOf (es ++ [e]) = packetsOf es ++ e.packet.toList := by
          rw [packetsOf, List.filterMap_append]
          cases e <;> rfl
        rw [grows.line, line, packets]
        cases e with
        | send p =>
            exact ⟨cuts ++ [added], by simp, List.rel_append cut (.cons adds .nil)⟩
        | timer q =>
            obtain rfl : added = [] := adds
            have none : packetsOf es ++ (Event.timer q).packet.toList = packetsOf es :=
              List.append_nil _
            rw [none]
            exact ⟨cuts, List.append_nil _, cut⟩
        | receive pid frags => exact absurd (here s before) not_false

end MpegLL

end Mftdma.Mpeg
