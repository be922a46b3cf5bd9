import Mathlib.Algebra.BigOperators.Group.List.Basic
import Mftdma.Data.Probing
import Mftdma.Execution.Loop
import Mftdma.Execution.Run

/-!
# `MpegLL`: packing packets into cells, and back

`send_frags` appends a packet to the open cell of its next hop, sends the cell
down whenever it is full, and leaves the last cell open until a timer flushes it
or too little space is left in it. `sendUp` puts the packets together again.
Both sides look for their slot with `get_queue`.

Several cells can be open at a time, but there is one member `payload`: it points
to the payload made by the last call of `new_dvb`, and `send_frags` inserts into
that one. The payloads therefore live on a heap, and a cell has the address of
its own.
-/

namespace Mftdma.Mpeg

open Execution

def nQueues : ℕ := 100
def uleHdr : ℕ := 4
def uleHdrAndCrc : ℕ := 8
def maxFrags : ℕ := 10

instance : NeZero nQueues := ⟨by decide⟩

abbrev Slot := Fin nQueues

/-- A packet from above: its `uid_`, the `next_hop()` that its route has, and `size()`. -/
structure Packet where
  uid : ℕ
  nextHop : ℕ
  size : ℕ
deriving DecidableEq

/-- An entry of the arrays `frag` and `frag_size` of a `DvbPayload`. -/
structure Frag where
  packet : Packet
  size : ℕ
deriving DecidableEq

/-- The header of a cell, and where its payload is. -/
structure Cell where
  pid : ℕ
  addr : ℕ
  pusi : Bool
  dvbSpace : ℕ
  queue : Slot
  status : Bool
  payload : ℕ
deriving DecidableEq

/-- The copy of a packet in `rx_buffer`, with the header fields used on it. -/
structure RxPacket where
  packet : Packet
  addr : ℕ
  length : ℕ
deriving DecidableEq

/-- The link layer of one station. A payload is the list of its entries; the arrays
of the source end after `maxFrags` of them. `sent` are the cells handed to
`sendDown` and `up` the packets scheduled for the layer above. -/
structure MpegLL where
  txBuffer : Slot → Option Cell
  rxBuffer : Slot → Option RxPacket
  payload : ℕ
  heap : ℕ → List Frag
  fresh : ℕ
  sent : List Cell
  up : List Packet

/-- `addr % N_QUEUES` -/
def home (addr : ℕ) : Slot := ⟨addr % nQueues, Nat.mod_lt _ (by decide)⟩

/-- `get_queue`, on the `addr_` fields of a buffer; `none` for `abort`. -/
def getQueue (buffer : Slot → Option ℕ) (addr : ℕ) : Option Slot :=
  Probing.lookup home buffer addr

/-- `setpusi` -/
def Cell.setpusi (c : Cell) : Cell :=
  if c.pusi then c else { c with pusi := true, dvbSpace := c.dvbSpace - 1 }

/-- What has to be left in a cell for another packet to begin in it. -/
def Cell.reserve (c : Cell) : ℕ := uleHdr + if c.pusi then 0 else 1

namespace MpegLL

/-- The constructor. No payload has been made, and the pointer is to none of them. -/
def init : MpegLL where
  txBuffer _ := none
  rxBuffer _ := none
  payload := 0
  heap _ := []
  fresh := 1
  sent := []
  up := []

def txAddrs (s : MpegLL) (l : Slot) : Option ℕ := (s.txBuffer l).map Cell.addr

def rxAddrs (s : MpegLL) (l : Slot) : Option ℕ := (s.rxBuffer l).map RxPacket.addr

/-- `payload->insert_frag` -/
def insertFrag (s : MpegLL) (p : Packet) (fsize : ℕ) : MpegLL :=
  { s with heap := Function.update s.heap s.payload (s.heap s.payload ++ [⟨p, fsize⟩]) }

def sendDown (s : MpegLL) (c : Cell) : MpegLL := { s with sent := s.sent ++ [c] }

/-- `tx_buffer[queue] = c` -/
def store (s : MpegLL) (q : Slot) (c : Option Cell) : MpegLL :=
  { s with txBuffer := Function.update s.txBuffer q c }

/-- `new_dvb`, in the station `id`: the new cell, and the heap with its payload. -/
def newDvb (id : ℕ) (s : MpegLL) (q : Slot) : Cell × MpegLL :=
  ({ pid := id, addr := id, pusi := false, dvbSpace := 184, queue := q, status := false
     payload := s.fresh },
    { s with
      payload := s.fresh
      heap := Function.update s.heap s.fresh []
      fresh := s.fresh + 1 })

end MpegLL

/-- The locals of `send_frags`: the bytes still to be packed, and the cell that `mh`
points to. -/
structure Packing where
  psize : ℕ
  cell : Cell
  ll : MpegLL

namespace Packing

/-- The cell that `send_frags` begins with, opened if the slot is empty. -/
def start (id : ℕ) (s : MpegLL) (p : Packet) (q : Slot) : Packing :=
  match s.txBuffer q with
  | some c => { psize := p.size, cell := { c with addr := p.nextHop }, ll := s }
  | none =>
      let (c, s) := s.newDvb id q
      { psize := p.size, cell := { c.setpusi with addr := p.nextHop }, ll := s }

/-- `while (psize > mh->dvb_space_)`. The cell goes with the `dvb_space_` it had. -/
def fill (id : ℕ) (p : Packet) (q : Slot) : Loop Packing where
  guard a := decide (a.cell.dvbSpace < a.psize)
  body a :=
    let s := (a.ll.insertFrag p a.cell.dvbSpace).sendDown a.cell
    let (c, s) := s.newDvb id q
    { psize := a.psize - a.cell.dvbSpace, cell := { c with addr := p.nextHop }, ll := s }

/-- The cell with the rest of the packet in it. -/
def closing (a : Packing) : Cell := { a.cell with dvbSpace := a.cell.dvbSpace - a.psize }

/-- The rest of the packet goes into the cell, which is sent when it is nearly full
and otherwise has its timer started. -/
def finish (a : Packing) (p : Packet) (q : Slot) : MpegLL :=
  let s := a.ll.insertFrag p a.psize
  if a.closing.dvbSpace < a.closing.reserve then (s.sendDown a.closing).store q none
  else s.store q (some { a.closing with status := true })

end Packing

/-- What `ch->size() += ULE_HDR_AND_CRC` makes of a packet. -/
def Packet.encapsulate (p : Packet) : Packet := { p with size := p.size + uleHdrAndCrc }

/-- What `sendUp` has in the slot when it has added a fragment. -/
def RxPacket.collect (pid : ℕ) (held : Option RxPacket) (f : Frag) : RxPacket :=
  match held with
  | some r =>
      if r.packet.uid = f.packet.uid then { r with addr := pid, length := r.length + f.size }
      else { packet := f.packet, addr := pid, length := f.size }
  | none => { packet := f.packet, addr := pid, length := f.size }

theorem RxPacket.collect_addr (pid : ℕ) (held : Option RxPacket) (f : Frag) :
    (RxPacket.collect pid held f).addr = pid := by
  cases held with
  | none => rfl
  | some r =>
      rw [RxPacket.collect]
      split_ifs <;> rfl

/-- One turn of the loop over the fragments of a cell: the slot, and the packets sent up. -/
def RxPacket.accept (pid : ℕ) (w : Option RxPacket × List Packet) (f : Frag) :
    Option RxPacket × List Packet :=
  let r := collect pid w.1 f
  if r.packet.size = r.length then
    (none, w.2 ++ [{ r.packet with size := r.packet.size - uleHdrAndCrc }])
  else (some r, w.2)

namespace MpegLL

/-- `send_frags`; the `size + 8` passes allowed to the loop are always enough. -/
def sendFrags (id : ℕ) (s : MpegLL) (p : Packet) : Option MpegLL :=
  (getQueue s.txAddrs p.nextHop).bind fun q =>
    ((Packing.fill id p.encapsulate q).exec p.encapsulate.size
      (Packing.start id s p.encapsulate q)).map fun a => a.finish p.encapsulate q

/-- `handle_timer`, called with the cell `c`. -/
def handleTimer (s : MpegLL) (c : Cell) : Option MpegLL :=
  (s.txBuffer c.queue).map fun d => (s.sendDown d).store c.queue none

/-- `sendUp`, for a cell from the station `pid`. -/
def sendUp (s : MpegLL) (pid : ℕ) (frags : List Frag) : Option MpegLL :=
  (getQueue s.rxAddrs pid).map fun q =>
    let w := frags.foldl (RxPacket.accept pid) (s.rxBuffer q, s.up)
    { s with rxBuffer := Function.update s.rxBuffer q w.1, up := w.2 }

end MpegLL

/-- A packet from above, the timer of the cell in a slot, a cell from below. -/
inductive Event where
  | send (p : Packet)
  | timer (q : Slot)
  | receive (pid : ℕ) (frags : List Frag)

/-- A timer runs for each cell of `tx_buffer` with `status_` set, since `send_frags`
cancels it before it hands such a cell to `sendDown`. -/
def step (id : ℕ) (s : MpegLL) : Event → Option MpegLL
  | .send p => s.sendFrags id p
  | .timer q => (s.txBuffer q).bind fun c => if c.status then s.handleTimer c else none
  | .receive pid frags => s.sendUp pid frags

namespace MpegLL

/-- The cells in `tx_buffer` outside the slot `q`, and those handed to `sendDown`. -/
def Others (s : MpegLL) (q : Slot) (c : Cell) : Prop :=
  (∃ l, l ≠ q ∧ s.txBuffer l = some c) ∨ c ∈ s.sent

/-- The cells in `tx_buffer`, and those handed to `sendDown`. -/
def Carries (s : MpegLL) (c : Cell) : Prop := (∃ l, s.txBuffer l = some c) ∨ c ∈ s.sent

/-- What holds of the open cells and their payloads after every call. -/
structure Placed (s : MpegLL) : Prop where
  queue : ∀ q c, s.txBuffer q = some c → c.queue = q
  room : ∀ q c, s.txBuffer q = some c → uleHdr ≤ c.dvbSpace
  made : ∀ c, s.Carries c → c.payload < s.fresh
  current : s.payload < s.fresh
  alone : ∀ q c, s.txBuffer q = some c → ∀ d, s.Others q d → d.payload ≠ c.payload
  owned : ∀ q c, s.txBuffer q = some c → ∃ d, s.Carries d ∧ d.payload = s.payload

variable {s : MpegLL} {q l : Slot} {c d : Cell}

@[simp] theorem store_self (s : MpegLL) (q : Slot) (v : Option Cell) :
    (s.store q v).txBuffer q = v := by
  simp [store]

theorem store_of_ne {v : Option Cell} (h : l ≠ q) : (s.store q v).txBuffer l = s.txBuffer l := by
  simp [store, h]

theorem store_some {v : Option Cell} : (s.store q v).txBuffer l = some d ↔
    l = q ∧ v = some d ∨ l ≠ q ∧ s.txBuffer l = some d := by
  by_cases h : l = q
  · subst h
    simp
  · simp [store_of_ne h, h]

/-- What holds of all open cells once a cell has been stored. -/
theorem forall_store {R : Slot → Cell → Prop} (here : R q d)
    (there : ∀ l c, l ≠ q → s.txBuffer l = some c → R l c) (l : Slot) (c : Cell)
    (held : (s.store q (some d)).txBuffer l = some c) : R l c := by
  obtain ⟨rfl, hd⟩ | ⟨hl, old⟩ := store_some.mp held
  · obtain rfl := Option.some.inj hd
    exact here
  · exact there l c hl old

theorem carries_of_txBuffer (h : s.txBuffer q = some c) : s.Carries c := .inl ⟨q, h⟩

theorem Others.carries (h : s.Others q d) : s.Carries d :=
  h.imp_left fun ⟨l, _, held⟩ => ⟨l, held⟩

theorem carries_iff (h : s.txBuffer q = some c) : s.Carries d ↔ d = c ∨ s.Others q d := by
  constructor
  · rintro (⟨l, held⟩ | gone)
    · by_cases hl : l = q
      · subst hl
        exact .inl (Option.some.inj (held.symm.trans h))
      · exact .inr (.inl ⟨l, hl, held⟩)
    · exact .inr (.inr gone)
  · rintro (rfl | other)
    · exact carries_of_txBuffer h
    · exact other.carries

theorem carries_iff_of_none (h : s.txBuffer q = none) : s.Carries d ↔ s.Others q d := by
  refine ⟨fun carried => carried.imp_left ?_, Others.carries⟩
  rintro ⟨l, held⟩
  refine ⟨l, ?_, held⟩
  rintro rfl
  rw [h] at held
  cases held

theorem others_store {v : Option Cell} : (s.store q v).Others q d ↔ s.Others q d := by
  apply or_congr_left
  apply exists_congr
  intro l
  apply and_congr_right
  intro hl
  rw [store_of_ne hl]

theorem others_sendDown : (s.sendDown c).Others q d ↔ d = c ∨ s.Others q d := by
  rw [Others, sendDown, List.mem_append, List.mem_singleton, ← or_assoc, or_comm]
  rfl

theorem carries_store : (s.store q (some c)).Carries d ↔ d = c ∨ s.Others q d := by
  rw [carries_iff (store_self s q (some c)), others_store]

theorem carries_retire : ((s.sendDown c).store q none).Carries d ↔ d = c ∨ s.Others q d := by
  rw [carries_iff_of_none (store_self _ q none), others_store, others_sendDown]

theorem placed_init : Placed init where
  queue q c h := by cases h
  room q c h := by cases h
  made c h := by
    obtain ⟨l, held⟩ | gone := h
    · cases held
    · cases gone
  current := Nat.zero_lt_one
  alone q c h := by cases h
  owned q c h := by cases h

theorem Placed.insertFrag (h : Placed s) (p : Packet) (fsize : ℕ) :
    Placed (s.insertFrag p fsize) :=
  ⟨h.queue, h.room, h.made, h.current, h.alone, h.owned⟩

/-- The cells outside a slot that is written, seen from another slot. -/
theorem others_of_others_store {v : Option Cell} (hl : l ≠ q) (h : (s.store q v).Others l d) :
    v = some d ∨ s.Others l d ∧ s.Others q d := by
  obtain ⟨k, hk, held⟩ | gone := h
  · obtain ⟨rfl, hv⟩ | ⟨hq, old⟩ := store_some.mp held
    · exact .inl hv
    · exact .inr ⟨.inl ⟨k, hk, old⟩, .inl ⟨k, hq, old⟩⟩
  · exact .inr ⟨.inr gone, .inr gone⟩

/-- The header of the open cell is written. -/
theorem Placed.rewrite (h : Placed s) (held : s.txBuffer q = some c) (same : d.payload = c.payload)
    (queue : d.queue = q) (room : uleHdr ≤ d.dvbSpace) : Placed (s.store q (some d)) := by
  refine ⟨forall_store queue fun l e _ => h.queue l e, forall_store room fun l e _ => h.room l e,
    fun e he => ?_, h.current, forall_store ?_ ?_, fun _ _ _ => ?_⟩
  · obtain rfl | other := carries_store.mp he
    · rw [same]
      exact h.made c (carries_of_txBuffer held)
    · exact h.made e other.carries
  · intro f hf
    rw [same]
    exact h.alone q c held f (others_store.mp hf)
  · intro l e hl old f hf
    obtain hd | ⟨hf, -⟩ := others_of_others_store hl hf
    · obtain rfl := Option.some.inj hd
      rw [same]
      exact h.alone l e old c (.inl ⟨q, Ne.symm hl, held⟩)
    · exact h.alone l e old f hf
  · obtain ⟨f, hf, eq⟩ := h.owned q c held
    obtain rfl | other := (carries_iff held).mp hf
    · exact ⟨d, carries_store.mpr (.inl rfl), same.trans eq⟩
    · exact ⟨f, carries_store.mpr (.inr other), eq⟩

/-- The open cell is handed to `sendDown`. -/
theorem Placed.retire (h : Placed s) (held : s.txBuffer q = some c)
    (same : d.payload = c.payload) : Placed ((s.sendDown d).store q none) := by
  have kept : ∀ l e, ((s.sendDown d).store q none).txBuffer l = some e →
      l ≠ q ∧ s.txBuffer l = some e := by
    intro l e he
    obtain ⟨-, hd⟩ | old := store_some.mp he
    · cases hd
    · exact old
  refine ⟨fun l e he => h.queue l e (kept l e he).2, fun l e he => h.room l e (kept l e he).2,
    fun e he => ?_, h.current, fun l e he f hf => ?_, fun _ _ _ => ?_⟩
  · obtain rfl | other := carries_retire.mp he
    · rw [same]
      exact h.made c (carries_of_txBuffer held)
    · exact h.made e other.carries
  · obtain ⟨hl, old⟩ := kept l e he
    obtain hd | ⟨hf, -⟩ := others_of_others_store hl hf
    · cases hd
    · obtain rfl | hf := others_sendDown.mp hf
      · rw [same]
        exact h.alone l e old c (.inl ⟨q, Ne.symm hl, held⟩)
      · exact h.alone l e old f hf
  · obtain ⟨f, hf, eq⟩ := h.owned q c held
    obtain rfl | other := (carries_iff held).mp hf
    · exact ⟨d, carries_retire.mpr (.inl rfl), same.trans eq⟩
    · exact ⟨f, carries_retire.mpr (.inr other), eq⟩

/-- A cell is opened with the payload that `new_dvb` has made. -/
theorem Placed.open (h : Placed s) (id : ℕ) (new : d.payload = s.fresh) (queue : d.queue = q)
    (room : uleHdr ≤ d.dvbSpace) : Placed ((s.newDvb id q).2.store q (some d)) := by
  have older : ∀ f, s.Others q f → f.payload < d.payload := by
    intro f hf
    rw [new]
    exact h.made f hf.carries
  refine ⟨forall_store queue fun l e _ => h.queue l e, forall_store room fun l e _ => h.room l e,
    fun e he => ?_, Nat.lt_succ_self s.fresh, forall_store ?_ ?_, fun _ _ _ => ?_⟩
  · obtain rfl | other := carries_store.mp he
    · exact Nat.lt_succ_of_le new.le
    · exact Nat.lt_succ_of_lt (h.made e (Others.carries other))
  · intro f hf
    exact (older f (others_store.mp hf)).ne
  · intro l e hl old f hf
    obtain hd | ⟨hf, -⟩ := others_of_others_store hl hf
    · obtain rfl := Option.some.inj hd
      exact (older e (.inl ⟨l, hl, old⟩)).ne'
    · exact h.alone l e old f hf
  · exact ⟨d, carries_store.mpr (.inl rfl), new⟩

end MpegLL

namespace Packing

open MpegLL

variable {a b : Packing} {s : MpegLL} {q : Slot} {c : Cell} {p : Packet} {id : ℕ}

/-- The station with the cell of `mh` in its slot. -/
def hold (a : Packing) (q : Slot) : MpegLL := a.ll.store q (some a.cell)

theorem start_of_some (h : s.txBuffer q = some c) :
    start id s p q = { psize := p.size, cell := { c with addr := p.nextHop }, ll := s } := by
  rw [start, h]

theorem start_of_none (h : s.txBuffer q = none) : start id s p q =
    { psize := p.size
      cell := { pid := id, addr := p.nextHop, pusi := true, dvbSpace := 183, queue := q
                status := false, payload := s.fresh }
      ll := (s.newDvb id q).2 } := by
  rw [start, h]
  rfl

@[simp] theorem start_psize : (start id s p q).psize = p.size := by
  cases held : s.txBuffer q with
  | some c => rw [start_of_some held]
  | none => rw [start_of_none held]

@[simp] theorem start_addr : (start id s p q).cell.addr = p.nextHop := by
  cases held : s.txBuffer q with
  | some c => rw [start_of_some held]
  | none => rw [start_of_none held]

@[simp] theorem start_txBuffer : (start id s p q).ll.txBuffer = s.txBuffer := by
  cases held : s.txBuffer q with
  | some c => rw [start_of_some held]
  | none =>
      rw [start_of_none held]
      rfl

@[simp] theorem start_rxBuffer : (start id s p q).ll.rxBuffer = s.rxBuffer := by
  cases held : s.txBuffer q with
  | some c => rw [start_of_some held]
  | none =>
      rw [start_of_none held]
      rfl

theorem fresh_le_start : s.fresh ≤ (start id s p q).ll.fresh := by
  cases held : s.txBuffer q with
  | some c => rw [start_of_some held]
  | none =>
      rw [start_of_none held]
      exact Nat.le_succ s.fresh

theorem placed_start (h : s.Placed) : ((start id s p q).hold q).Placed := by
  cases held : s.txBuffer q with
  | some c =>
      rw [start_of_some held]
      exact h.rewrite held rfl (h.queue q c held) (h.room q c held)
  | none =>
      rw [start_of_none held]
      have room : uleHdr ≤ 183 := by decide
      exact h.open id rfl rfl room

theorem placed_pass (h : (a.hold q).Placed) : (((fill id p q).body a).hold q).Placed := by
  have gone : (((a.ll.insertFrag p a.cell.dvbSpace).sendDown a.cell).store q none).Placed := by
    simpa [hold, store, sendDown, MpegLL.insertFrag] using
      (h.retire (store_self a.ll q _) rfl).insertFrag p a.cell.dvbSpace
  have new : uleHdr ≤ 184 := by decide
  simpa [hold, store, newDvb, fill] using
    gone.open id (d := ((fill id p q).body a).cell) rfl rfl new

theorem placed_finish (h : (a.hold q).Placed) : (a.finish p q).Placed := by
  have here : (a.hold q).txBuffer q = some a.cell := store_self a.ll q _
  rw [finish]
  split_ifs with full
  · simpa [hold, store, sendDown, MpegLL.insertFrag] using
      (h.retire here (d := a.closing) rfl).insertFrag p a.psize
  · have queue : a.closing.queue = q := h.queue q a.cell here
    have room : uleHdr ≤ a.closing.dvbSpace :=
      (Nat.le_add_right _ _).trans (Nat.le_of_not_lt full)
    simpa [hold, store, MpegLL.insertFrag] using
      (h.rewrite here (d := { a.closing with status := true }) rfl queue
        room).insertFrag p a.psize

/-- What packing has done to the entry state `a` of the loop after at least one pass. -/
structure Passed (p : Packet) (a b : Packing) : Prop where
  pos : 0 < b.psize
  psize : (b.psize - 1) % 184 = (a.psize - a.cell.dvbSpace - 1) % 184
  space : b.cell.dvbSpace = 184
  pusi : b.cell.pusi = false
  addr : b.cell.addr = p.nextHop
  txBuffer : b.ll.txBuffer = a.ll.txBuffer
  rxBuffer : b.ll.rxBuffer = a.ll.rxBuffer
  first : a.cell ∈ b.ll.sent
  sent : ∀ d ∈ a.ll.sent, d ∈ b.ll.sent
  heap : ∀ i < a.ll.fresh, b.ll.heap i = (a.ll.insertFrag p a.cell.dvbSpace).heap i
  payload : a.ll.fresh ≤ b.ll.payload
  fresh : b.ll.payload < b.ll.fresh

theorem passed_first (guard : a.cell.dvbSpace < a.psize) :
    Passed p a ((fill id p q).body a) where
  pos := Nat.sub_pos_of_lt guard
  psize := rfl
  space := rfl
  pusi := rfl
  addr := rfl
  txBuffer := rfl
  rxBuffer := rfl
  first := List.mem_append_right a.ll.sent (List.mem_singleton_self a.cell)
  sent _ hd := List.mem_append_left [a.cell] hd
  heap _ hi := Function.update_of_ne hi.ne _ _
  payload := Nat.le_refl a.ll.fresh
  fresh := Nat.lt_succ_self a.ll.fresh

theorem Passed.pass (h : Passed p a b) (guard : b.cell.dvbSpace < b.psize) :
    Passed p a ((fill id p q).body b) where
  pos := Nat.sub_pos_of_lt guard
  psize := by
    have psize := h.psize
    rw [h.space] at guard
    show (b.psize - b.cell.dvbSpace - 1) % 184 = _
    rw [h.space]
    omega
  space := rfl
  pusi := rfl
  addr := rfl
  txBuffer := h.txBuffer
  rxBuffer := h.rxBuffer
  first := List.mem_append_left [b.cell] h.first
  sent d hd := List.mem_append_left [b.cell] (h.sent d hd)
  heap i hi := by
    have older : i < b.ll.payload := Nat.lt_of_lt_of_le hi h.payload
    rw [← h.heap i hi]
    exact (Function.update_of_ne (older.trans h.fresh).ne _ _).trans
      (Function.update_of_ne older.ne _ _)
  payload := h.payload.trans h.fresh.le
  fresh := Nat.lt_succ_self b.ll.fresh

/-- The loop leaves the packet as it was when it fits, and has made passes otherwise. -/
theorem fill_exit {k : ℕ} (h : (fill id p q).exec k a = some b) :
    b.psize ≤ b.cell.dvbSpace ∧ (b = a ∨ a.cell.dvbSpace < a.psize ∧ Passed p a b) := by
  obtain ⟨visited, exit⟩ := Loop.returns_iff.mp ⟨k, h⟩
  refine ⟨Nat.le_of_not_lt (of_decide_eq_false exit), ?_⟩
  apply visited.invariant (.inl rfl)
  rintro c - (rfl | ⟨long, passed⟩) guard
  · exact .inr ⟨of_decide_eq_true guard, passed_first (of_decide_eq_true guard)⟩
  · exact .inr ⟨long, passed.pass (of_decide_eq_true guard)⟩

theorem placed_fill {k : ℕ} (placed : (a.hold q).Placed) (h : (fill id p q).exec k a = some b) :
    (b.hold q).Placed :=
  (Loop.returns_iff.mp ⟨k, h⟩).1.invariant (I := fun b => (b.hold q).Placed) placed
    fun _ _ h _ => placed_pass h

theorem exists_fill (placed : (a.hold q).Placed) :
    ∃ b, (fill id p q).exec a.psize a = some b := by
  apply Loop.exists_exec_of_rank (I := fun b => (b.hold q).Placed) Packing.psize placed
    fun _ h _ => placed_pass h
  intro b placed guard
  have long : b.cell.dvbSpace < b.psize := of_decide_eq_true guard
  have room : 4 ≤ b.cell.dvbSpace := placed.room q b.cell (store_self b.ll q _)
  show b.psize - b.cell.dvbSpace < b.psize
  omega

end Packing

namespace MpegLL

variable {s t : MpegLL} {q : Slot} {p : Packet} {id : ℕ}

theorem sendFrags_eq_some : s.sendFrags id p = some t ↔
    ∃ q a, getQueue s.txAddrs p.nextHop = some q ∧
      (Packing.fill id p.encapsulate q).exec p.encapsulate.size
        (Packing.start id s p.encapsulate q) = some a ∧
      a.finish p.encapsulate q = t := by
  simp only [sendFrags, Option.bind_eq_some_iff, Option.map_eq_some_iff, exists_and_left]

/-- `send_frags` returns whenever `get_queue` does. -/
theorem exists_sendFrags (h : s.Placed) (looked : getQueue s.txAddrs p.nextHop = some q) :
    ∃ t, s.sendFrags id p = some t := by
  have placed : ((Packing.start id s p.encapsulate q).hold q).Placed := Packing.placed_start h
  obtain ⟨a, filled⟩ : ∃ a, (Packing.fill id p.encapsulate q).exec
      (Packing.start id s p.encapsulate q).psize (Packing.start id s p.encapsulate q) = some a :=
    Packing.exists_fill placed
  rw [Packing.start_psize] at filled
  exact ⟨_, sendFrags_eq_some.mpr ⟨q, a, looked, filled, rfl⟩⟩

/-- The timer of a slot sends the cell that is in it. -/
theorem timer_eq_some (h : s.Placed) (fired : step id s (.timer q) = some t) :
    ∃ c, s.txBuffer q = some c ∧ t = (s.sendDown c).store q none := by
  obtain ⟨c, held, fired⟩ := Option.bind_eq_some_iff.mp fired
  split_ifs at fired
  rw [handleTimer, h.queue q c held, held] at fired
  exact ⟨c, held, (Option.some.inj fired).symm⟩

theorem Placed.step {e : Event} (h : s.Placed) (stepped : step id s e = some t) : t.Placed := by
  cases e with
  | send p =>
      obtain ⟨q, a, -, filled, rfl⟩ := sendFrags_eq_some.mp stepped
      exact Packing.placed_finish (Packing.placed_fill (Packing.placed_start h) filled)
  | timer q =>
      obtain ⟨c, held, rfl⟩ := timer_eq_some h stepped
      exact h.retire held rfl
  | receive pid frags =>
      obtain ⟨q, -, rfl⟩ := Option.map_eq_some_iff.mp stepped
      exact ⟨h.queue, h.room, h.made, h.current, h.alone, h.owned⟩

end MpegLL

end Mftdma.Mpeg
