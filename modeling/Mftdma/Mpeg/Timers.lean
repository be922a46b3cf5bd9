import Mathlib.Data.List.FinRange
import Mathlib.Data.List.Perm.Basic
import Mftdma.Mpeg.Packer

/-!
# The flush timers of `MpegLL`

A cell that stays open is flushed by a timer, and the event of that timer is the
cell itself. `Timed` adds the events that the scheduler holds to the station, with
`cancel` and `start` where `send_frags` calls them; a cell is known by the payload
that was made with it, and a timer that expires finds its cell by that name.

`Timed.Armed` is the invariant: the events that are held are those of the open
cells, one each. `timed_step` shows that the packer's own step, which lets the
timer of any open cell expire, is what this comes to.
-/

namespace Mftdma.Mpeg

open Execution

namespace MpegLL

/-- The cells in `tx_buffer`. -/
def buffered (s : MpegLL) : List Cell := (List.finRange nQueues).filterMap s.txBuffer

/-- The names of the cells in `tx_buffer`, of those outside the slot `q`, and of those
handed to `sendDown`. -/
def openNames (s : MpegLL) : List ℕ := s.buffered.map Cell.payload

def namesBut (s : MpegLL) (q : Slot) : List ℕ :=
  (((List.finRange nQueues).erase q).filterMap s.txBuffer).map Cell.payload

def sentNames (s : MpegLL) : List ℕ := s.sent.map Cell.payload

/-- The cells that `new_dvb` has made. -/
def madeNames (s : MpegLL) : List ℕ := List.range' 1 (s.fresh - 1)

end MpegLL

/-- The station, and the flush events that are pending in the scheduler. -/
structure Timed where
  ll : MpegLL
  pending : List ℕ

/-- The locals of `send_frags` and the pending events. -/
structure TimedPacking where
  packing : Packing
  pending : List ℕ

/-- `tx_timer->cancel`. Nothing happens when no event of the cell is pending. -/
def cancel (pending : List ℕ) (c : Cell) : List ℕ := pending.erase c.payload

namespace TimedPacking

/-- The loop of `send_frags`, which cancels the timer of each cell that it sends. -/
def fill (id : ℕ) (p : Packet) (q : Slot) : Loop TimedPacking where
  guard a := (Packing.fill id p q).guard a.packing
  body a :=
    { packing := (Packing.fill id p q).body a.packing
      pending := cancel a.pending a.packing.cell }

/-- The end of `send_frags`: the timer is cancelled when the cell is sent, and started
unless `status_` says that it runs. -/
def finish (a : TimedPacking) (p : Packet) (q : Slot) : Timed where
  ll := a.packing.finish p q
  pending :=
    if a.packing.closing.dvbSpace < a.packing.closing.reserve then
      cancel a.pending a.packing.cell
    else if a.packing.cell.status then a.pending
    else a.packing.cell.payload :: a.pending

end TimedPacking

/-- A packet from above, the expiry of the timer of a cell, a cell from below. -/
inductive TimedEvent where
  | send (p : Packet)
  | expire (cell : ℕ)
  | receive (pid : ℕ) (frags : List Frag)

namespace Timed

/-- No event is pending when the station is made. -/
def init : Timed where
  ll := .init
  pending := []

def sendFrags (id : ℕ) (s : Timed) (p : Packet) : Option Timed :=
  (getQueue s.ll.txAddrs p.nextHop).bind fun q =>
    ((TimedPacking.fill id p.encapsulate q).exec p.encapsulate.size
      ⟨Packing.start id s.ll p.encapsulate q, s.pending⟩).map fun a => a.finish p.encapsulate q

/-- The cell object of a name. -/
def find (s : Timed) (cell : ℕ) : Option Cell :=
  (s.ll.buffered ++ s.ll.sent).find? fun c => c.payload = cell

/-- The scheduler calls `MpegTimer::handle` with a pending event, which is no longer
pending then. -/
def expire (s : Timed) (cell : ℕ) : Option Timed :=
  if cell ∈ s.pending then
    (s.find cell).bind fun c => (s.ll.handleTimer c).map fun ll =>
      { ll := ll, pending := s.pending.erase cell }
  else none

def step (id : ℕ) (s : Timed) : TimedEvent → Option Timed
  | .send p => s.sendFrags id p
  | .expire cell => s.expire cell
  | .receive pid frags => (s.ll.sendUp pid frags).map fun ll => { s with ll := ll }

/-- What holds whenever control is with the scheduler. -/
structure Armed (s : Timed) : Prop where
  placed : s.ll.Placed
  running : ∀ q c, s.ll.txBuffer q = some c → c.status = true
  pending : s.pending.Perm s.ll.openNames
  ledger : (s.ll.sentNames ++ s.ll.openNames).Perm s.ll.madeNames

end Timed

namespace MpegLL

variable {s t : MpegLL} {q l : Slot} {c d : Cell} {n : ℕ}

theorem mem_openNames : n ∈ s.openNames ↔ ∃ q c, s.txBuffer q = some c ∧ c.payload = n := by
  rw [openNames, List.mem_map]
  constructor
  · rintro ⟨c, mem, same⟩
    obtain ⟨q, -, held⟩ := List.mem_filterMap.mp mem
    exact ⟨q, c, held, same⟩
  · rintro ⟨q, c, held, same⟩
    exact ⟨c, List.mem_filterMap.mpr ⟨q, List.mem_finRange q, held⟩, same⟩

/-- The open cells are the one in a slot and those in the others. -/
theorem openNames_perm (s : MpegLL) (q : Slot) :
    s.openNames.Perm (((s.txBuffer q).map Cell.payload).toList ++ s.namesBut q) := by
  have front := (List.perm_cons_erase (List.mem_finRange q)).filterMap s.txBuffer
  refine (front.map Cell.payload).trans ?_
  rw [List.filterMap_cons]
  cases s.txBuffer q with
  | none => exact List.Perm.refl _
  | some c => exact List.Perm.refl _

theorem namesBut_congr (same : ∀ l, l ≠ q → s.txBuffer l = t.txBuffer l) :
    s.namesBut q = t.namesBut q := by
  unfold namesBut
  congr 1
  apply List.filterMap_congr
  intro l hl
  exact same l (((List.nodup_finRange nQueues).mem_erase_iff).mp hl).1

/-- In a station that is placed right, the cell of a slot is in no other one. -/
theorem Placed.notMem_namesBut (h : s.Placed) (held : s.txBuffer q = some c) :
    c.payload ∉ s.namesBut q := by
  intro mem
  obtain ⟨d, hd, same⟩ := List.mem_map.mp mem
  obtain ⟨l, hl, found⟩ := List.mem_filterMap.mp hd
  have other := ((List.nodup_finRange nQueues).mem_erase_iff.mp hl).1
  exact h.alone q c held d (.inl ⟨l, other, found⟩) same

theorem namesBut_store {v : Option Cell} : (s.store q v).namesBut q = s.namesBut q :=
  namesBut_congr fun _ hl => store_of_ne hl

theorem openNames_store_some : (s.store q (some c)).openNames.Perm (c.payload :: s.namesBut q) := by
  have perm := (s.store q (some c)).openNames_perm q
  rwa [store_self, namesBut_store] at perm

theorem openNames_store_none : (s.store q none).openNames.Perm (s.namesBut q) := by
  have perm := (s.store q none).openNames_perm q
  rwa [store_self, namesBut_store] at perm

/-- Sending the open cell of a slot moves its name to those of the sent cells. -/
theorem ledger_retire {made : List ℕ} (same : d.payload = c.payload)
    (ledger : (s.sentNames ++ c.payload :: s.namesBut q).Perm made) :
    (((s.sendDown d).store q none).sentNames ++ ((s.sendDown d).store q none).openNames).Perm
      made := by
  have sent : ((s.sendDown d).store q none).sentNames = s.sentNames ++ [c.payload] := by
    rw [← same]
    exact List.map_append ..
  refine (openNames_store_none.append_left _).trans ?_
  rw [sent, List.append_assoc]
  exact ledger

/-- `new_dvb` makes one more cell. -/
theorem madeNames_succ (made : 0 < s.fresh) (same : t.fresh = s.fresh + 1) :
    t.madeNames = s.madeNames ++ [s.fresh] := by
  have count : t.fresh - 1 = s.fresh - 1 + 1 := by omega
  have last : 1 + 1 * (s.fresh - 1) = s.fresh := by omega
  rw [madeNames, madeNames, count, List.range'_concat, last]

end MpegLL

namespace TimedPacking

open MpegLL

variable {a : TimedPacking} {s : Timed} {p : Packet} {q : Slot} {id : ℕ}

/-- What holds while `send_frags` works on the cell of the slot `q`. -/
structure Arming (q : Slot) (a : TimedPacking) : Prop where
  placed : (a.packing.hold q).Placed
  running : ∀ l c, l ≠ q → a.packing.ll.txBuffer l = some c → c.status = true
  pending : a.pending.Perm
    ((if a.packing.cell.status then [a.packing.cell.payload] else []) ++ a.packing.ll.namesBut q)
  ledger : (a.packing.ll.sentNames ++ a.packing.cell.payload :: a.packing.ll.namesBut q).Perm
    a.packing.ll.madeNames

theorem Arming.notMem (h : Arming q a) :
    a.packing.cell.payload ∉ a.packing.ll.namesBut q := by
  have apart := h.placed.notMem_namesBut (store_self a.packing.ll q _)
  rwa [Packing.hold, namesBut_store] at apart

/-- Cancelling leaves the events of the other cells, whether the timer was running or not. -/
theorem Arming.cancel (h : Arming q a) :
    (cancel a.pending a.packing.cell).Perm (a.packing.ll.namesBut q) := by
  have pending := h.pending
  cases running : a.packing.cell.status with
  | true =>
      rw [running, if_pos rfl] at pending
      have gone := pending.erase a.packing.cell.payload
      rwa [List.singleton_append, List.erase_cons_head] at gone
  | false =>
      rw [running, if_neg Bool.false_ne_true, List.nil_append] at pending
      rw [Mpeg.cancel, List.erase_of_not_mem fun mem => h.notMem (pending.subset mem)]
      exact pending

/-- A cell that is made and opened is entered in the ledger. -/
theorem ledger_succ {xs ys made : List ℕ} {n : ℕ} (ledger : (xs ++ ys).Perm made) :
    (xs ++ n :: ys).Perm (made ++ [n]) :=
  List.perm_middle.trans ((ledger.cons n).trans (List.perm_append_singleton n made).symm)

theorem arming_start (h : s.Armed) :
    Arming q ⟨Packing.start id s.ll p q, s.pending⟩ := by
  have others := s.ll.openNames_perm q
  cases held : s.ll.txBuffer q with
  | some c =>
      rw [held] at others
      refine ⟨Packing.placed_start h.placed, ?_, ?_, ?_⟩ <;> rw [Packing.start_of_some held]
      · exact fun l c _ found => h.running l c found
      · show s.pending.Perm ((if c.status then [c.payload] else []) ++ s.ll.namesBut q)
        rw [h.running q c held]
        exact h.pending.trans others
      · exact (others.symm.append_left _).trans h.ledger
  | none =>
      rw [held] at others
      have made : 0 < s.ll.fresh := Nat.zero_lt_of_lt h.placed.current
      refine ⟨Packing.placed_start h.placed, ?_, ?_, ?_⟩ <;> rw [Packing.start_of_none held]
      · exact fun l c _ found => h.running l c found
      · exact h.pending.trans others
      · rw [madeNames_succ (s := s.ll) made rfl]
        exact ledger_succ ((others.symm.append_left _).trans h.ledger)

theorem Arming.pass (h : Arming q a) : Arming q ((fill id p q).body a) := by
  have made : 0 < a.packing.ll.fresh := Nat.zero_lt_of_lt h.placed.current
  refine ⟨Packing.placed_pass h.placed, h.running, h.cancel, ?_⟩
  have names : ((fill id p q).body a).packing.ll.madeNames =
      a.packing.ll.madeNames ++ [a.packing.ll.fresh] := madeNames_succ made rfl
  have sent : ((fill id p q).body a).packing.ll.sentNames =
      a.packing.ll.sentNames ++ [a.packing.cell.payload] := List.map_append ..
  rw [names, sent]
  refine ledger_succ ?_
  rw [List.append_assoc]
  exact h.ledger

theorem finish_of_full (full : a.packing.closing.dvbSpace < a.packing.closing.reserve) :
    a.finish p q =
      ⟨((a.packing.ll.insertFrag p a.packing.psize).sendDown a.packing.closing).store q none,
        Mpeg.cancel a.pending a.packing.cell⟩ := by
  rw [TimedPacking.finish, Packing.finish]
  simp only [if_pos full]

theorem finish_of_not_full (full : ¬ a.packing.closing.dvbSpace < a.packing.closing.reserve) :
    a.finish p q =
      ⟨(a.packing.ll.insertFrag p a.packing.psize).store q
          (some { a.packing.closing with status := true }),
        if a.packing.cell.status then a.pending else a.packing.cell.payload :: a.pending⟩ := by
  rw [TimedPacking.finish, Packing.finish]
  simp only [if_neg full]

theorem Arming.finish (h : Arming q a) : (a.finish p q).Armed := by
  have placed : (a.finish p q).ll.Placed := Packing.placed_finish h.placed
  by_cases full : a.packing.closing.dvbSpace < a.packing.closing.reserve
  · rw [finish_of_full full] at placed ⊢
    refine ⟨placed, fun l c found => ?_, h.cancel.trans openNames_store_none.symm, ?_⟩
    · obtain ⟨-, none⟩ | ⟨hl, old⟩ := store_some.mp found
      · cases none
      · exact h.running l c hl old
    · exact ledger_retire (s := a.packing.ll.insertFrag p a.packing.psize) rfl h.ledger
  · rw [finish_of_not_full full] at placed ⊢
    refine ⟨placed, fun l c found => ?_, ?_, (openNames_store_some.append_left _).trans h.ledger⟩
    · obtain ⟨-, here⟩ | ⟨hl, old⟩ := store_some.mp found
      · rw [← Option.some.inj here]
      · exact h.running l c hl old
    · refine List.Perm.trans ?_ openNames_store_some.symm
      have pending := h.pending
      cases running : a.packing.cell.status with
      | true =>
          rw [running, if_pos rfl] at pending
          exact pending
      | false =>
          rw [running, if_neg Bool.false_ne_true, List.nil_append] at pending
          exact pending.cons _

end TimedPacking

namespace Timed

open MpegLL

variable {s t : Timed} {p : Packet} {q : Slot} {c : Cell} {id : ℕ} {e : TimedEvent}

theorem openNames_init : MpegLL.init.openNames = [] := by
  simp [openNames, buffered, MpegLL.init]

theorem armed_init : init.Armed where
  placed := placed_init
  running q c h := by cases h
  pending := by
    show [].Perm MpegLL.init.openNames
    rw [openNames_init]
  ledger := by
    show ([] ++ MpegLL.init.openNames).Perm []
    rw [openNames_init]
    exact .nil

theorem Armed.sendFrags (h : s.Armed) (sent : s.sendFrags id p = some t) : t.Armed := by
  obtain ⟨q, -, sent⟩ := Option.bind_eq_some_iff.mp sent
  obtain ⟨a, filled, rfl⟩ := Option.map_eq_some_iff.mp sent
  have arming := (Loop.returns_iff.mp ⟨_, filled⟩).1.invariant
    (I := TimedPacking.Arming q) (TimedPacking.arming_start h) fun _ _ ha _ => ha.pass
  exact arming.finish

/-- A timer that expires finds its own cell. -/
theorem Armed.find (h : s.Armed) (held : s.ll.txBuffer q = some c) :
    s.find c.payload = some c := by
  have mem : c ∈ s.ll.buffered := List.mem_filterMap.mpr ⟨q, List.mem_finRange q, held⟩
  obtain ⟨d, found⟩ : ∃ d, s.ll.buffered.find? (fun d => d.payload = c.payload) = some d := by
    refine Option.isSome_iff_exists.mp (List.find?_isSome.mpr ⟨c, mem, ?_⟩)
    exact decide_eq_true rfl
  have same : d.payload = c.payload := by simpa using List.find?_some found
  obtain ⟨l, -, there⟩ := List.mem_filterMap.mp (List.mem_of_find?_eq_some found)
  have here : l = q := by
    by_contra other
    exact h.placed.alone q c held d (.inl ⟨l, other, there⟩) same
  rw [here, held] at there
  rw [Timed.find, List.find?_append, found, Option.some_or, there]

/-- The event of an open cell is pending, and when it expires that cell is sent. -/
theorem Armed.expire (h : s.Armed) (held : s.ll.txBuffer q = some c) :
    ∃ t, s.expire c.payload = some t ∧ t.ll = (s.ll.sendDown c).store q none ∧ t.Armed := by
  have mem : c.payload ∈ s.pending := h.pending.symm.subset (mem_openNames.mpr ⟨q, c, held, rfl⟩)
  have others := s.ll.openNames_perm q
  rw [held] at others
  have handled : s.ll.handleTimer c = some ((s.ll.sendDown c).store q none) := by
    rw [handleTimer, h.placed.queue q c held, held]
    rfl
  refine ⟨⟨_, s.pending.erase c.payload⟩, ?_, rfl, h.placed.retire held rfl, ?_, ?_, ?_⟩
  · rw [Timed.expire, if_pos mem, h.find held, Option.bind_some, handled]
    rfl
  · intro l d found
    obtain ⟨-, none⟩ | ⟨-, old⟩ := store_some.mp found
    · cases none
    · exact h.running l d old
  · refine List.Perm.trans ?_ openNames_store_none.symm
    have gone := (h.pending.trans others).erase c.payload
    rwa [Option.map_some, Option.toList_some, List.singleton_append, List.erase_cons_head] at gone
  · exact ledger_retire rfl ((others.symm.append_left _).trans h.ledger)

/-- Only the timers of open cells expire. -/
theorem Armed.of_expire (h : s.Armed) {cell : ℕ} (expired : s.expire cell = some t) :
    ∃ q c, s.ll.txBuffer q = some c ∧ t.ll = (s.ll.sendDown c).store q none ∧ t.Armed := by
  have pending : cell ∈ s.pending := by
    by_contra absent
    rw [Timed.expire, if_neg absent] at expired
    cases expired
  obtain ⟨q, c, held, rfl⟩ := mem_openNames.mp (h.pending.subset pending)
  obtain ⟨u, same, effect, armed⟩ := h.expire held
  obtain rfl := Option.some.inj (expired.symm.trans same)
  exact ⟨q, c, held, effect, armed⟩

theorem Armed.step (h : s.Armed) (stepped : s.step id e = some t) : t.Armed := by
  cases e with
  | send p => exact h.sendFrags stepped
  | expire cell =>
      obtain ⟨q, c, -, -, armed⟩ := h.of_expire stepped
      exact armed
  | receive pid frags =>
      obtain ⟨ll, received, rfl⟩ := Option.map_eq_some_iff.mp stepped
      obtain ⟨q, -, rfl⟩ := Option.map_eq_some_iff.mp received
      exact ⟨⟨h.placed.queue, h.placed.room, h.placed.made, h.placed.current, h.placed.alone,
        h.placed.owned⟩, h.running, h.pending, h.ledger⟩

/-- The loop with its timers does to the packet what the loop without them does. -/
theorem fill_packing (k : ℕ) (a : TimedPacking) :
    ((TimedPacking.fill id p q).exec k a).map TimedPacking.packing =
      (Packing.fill id p q).exec k a.packing := by
  induction k generalizing a with
  | zero =>
      unfold Loop.exec
      show Option.map _ (if (Packing.fill id p q).guard a.packing then none else some a) = _
      split_ifs <;> rfl
  | succ k ih =>
      unfold Loop.exec
      show Option.map _ (if (Packing.fill id p q).guard a.packing then
        (TimedPacking.fill id p q).exec k ((TimedPacking.fill id p q).body a) else some a) = _
      split_ifs
      · exact ih _
      · rfl

theorem sendFrags_ll : (s.sendFrags id p).map Timed.ll = s.ll.sendFrags id p := by
  unfold Timed.sendFrags MpegLL.sendFrags
  cases getQueue s.ll.txAddrs p.nextHop with
  | none => rfl
  | some q =>
      rw [Option.bind_some, Option.bind_some, ← fill_packing _ ⟨_, s.pending⟩, Option.map_map,
        Option.map_map]
      rfl

/-- With its timers, the station makes no other steps than the packer. -/
theorem Armed.packer_step (h : s.Armed) (stepped : s.step id e = some t) :
    ∃ e, Mpeg.step id s.ll e = some t.ll := by
  cases e with
  | send p =>
      refine ⟨.send p, ?_⟩
      show s.ll.sendFrags id p = _
      rw [← sendFrags_ll]
      exact congrArg (Option.map Timed.ll) stepped
  | expire cell =>
      obtain ⟨q, c, held, effect, -⟩ := h.of_expire stepped
      refine ⟨.timer q, ?_⟩
      show (s.ll.txBuffer q).bind _ = _
      rw [held, Option.bind_some, if_pos (h.running q c held), handleTimer,
        h.placed.queue q c held, held, effect]
      rfl
  | receive pid frags =>
      obtain ⟨ll, received, rfl⟩ := Option.map_eq_some_iff.mp stepped
      exact ⟨.receive pid frags, received⟩

/-- With the timers in it, the station makes the steps of the packer, where the timer of any
open cell may expire. -/
theorem timed_step (h : s.Armed) (u : MpegLL) :
    (∃ e t, s.step id e = some t ∧ t.ll = u) ↔ ∃ e, Mpeg.step id s.ll e = some u := by
  constructor
  · rintro ⟨e, t, stepped, rfl⟩
    exact h.packer_step stepped
  · rintro ⟨e, stepped⟩
    cases e with
    | send p =>
        have sent : (s.sendFrags id p).map Timed.ll = some u := sendFrags_ll.trans stepped
        obtain ⟨t, timed, rfl⟩ := Option.map_eq_some_iff.mp sent
        exact ⟨.send p, t, timed, rfl⟩
    | timer q =>
        obtain ⟨c, held, rfl⟩ := timer_eq_some h.placed stepped
        obtain ⟨t, expired, effect, -⟩ := h.expire held
        exact ⟨.expire c.payload, t, expired, effect⟩
    | receive pid frags =>
        exact ⟨.receive pid frags, _, congrArg (Option.map _) stepped, rfl⟩

/-- Whenever control is with the scheduler, each open cell is in the slot that it names, with
`status_` set and one flush event pending; no other flush event is pending, and each
cell that `new_dvb` made either is in one slot or has been sent once. -/
theorem cell_life_cycle {es : List TimedEvent} (reach : run (step id) init es = some t) :
    (∀ q c, t.ll.txBuffer q = some c →
      c.queue = q ∧ c.status = true ∧ t.pending.count c.payload = 1) ∧
    (∀ n ∈ t.pending, ∃ q c, t.ll.txBuffer q = some c ∧ c.payload = n) ∧
    ∀ n ∈ t.ll.madeNames, t.ll.sentNames.count n = 1 ∧ n ∉ t.ll.openNames ∨
      n ∉ t.ll.sentNames ∧ t.ll.openNames.count n = 1 := by
  have h : t.Armed := run_invariant armed_init (fun _ _ _ ha => ha.step) reach
  have once : ∀ n ∈ t.ll.madeNames, t.ll.sentNames.count n + t.ll.openNames.count n = 1 := by
    intro n hn
    rw [← List.count_append, h.ledger.count_eq]
    exact List.count_eq_one_of_mem List.nodup_range' hn
  refine ⟨fun q c held => ?_, fun n hn => mem_openNames.mp (h.pending.subset hn), fun n hn => ?_⟩
  · have own : c.payload ∈ t.ll.openNames := mem_openNames.mpr ⟨q, c, held, rfl⟩
    have made : c.payload ∈ t.ll.madeNames := h.ledger.subset (List.mem_append_right _ own)
    have some_open := List.count_pos_iff.mpr own
    have one := once c.payload made
    refine ⟨h.placed.queue q c held, h.running q c held, ?_⟩
    rw [h.pending.count_eq]
    omega
  · have one := once n hn
    by_cases sent : n ∈ t.ll.sentNames
    · have some_sent := List.count_pos_iff.mpr sent
      have none : t.ll.openNames.count n = 0 := by omega
      exact .inl ⟨by omega, List.count_eq_zero.mp none⟩
    · have none := List.count_eq_zero.mpr sent
      exact .inr ⟨sent, by omega⟩

/-- Two packets share a cell whose timer expires, and one for another hop fills two more. -/
theorem cell_life_cycle_three : ∃ t, run (step 7) init
      [.send ⟨0, 1, 40⟩, .send ⟨1, 1, 40⟩, .expire 1, .send ⟨2, 2, 300⟩] = some t ∧
    ∀ n ∈ t.ll.madeNames, t.ll.sentNames.count n = 1 ∧ n ∉ t.ll.openNames ∨
      n ∉ t.ll.sentNames ∧ t.ll.openNames.count n = 1 := by
  have returned : (run (step 7) init
      [.send ⟨0, 1, 40⟩, .send ⟨1, 1, 40⟩, .expire 1, .send ⟨2, 2, 300⟩]).isSome = true := by
    decide +kernel
  obtain ⟨t, reach⟩ := Option.isSome_iff_exists.mp returned
  obtain ⟨-, -, ledger⟩ := cell_life_cycle reach
  exact ⟨t, reach, ledger⟩

/-- The handler of an event that is pending always finds a cell to send. -/
theorem pending_expires {es : List TimedEvent} (reach : run (step id) init es = some t) {n : ℕ}
    (pending : n ∈ t.pending) : ∃ u, t.step id (.expire n) = some u := by
  have h : t.Armed := run_invariant armed_init (fun _ _ _ ha => ha.step) reach
  obtain ⟨q, c, held, rfl⟩ := mem_openNames.mp (h.pending.subset pending)
  obtain ⟨u, expired, -⟩ := h.expire held
  exact ⟨u, expired⟩

end Timed

end Mftdma.Mpeg
