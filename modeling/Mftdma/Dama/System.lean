import Mftdma.Allocator.Schedule
import Mftdma.Requester.Ledger
import Mftdma.Rle.Drain

/-!
# The loop of DAMA

Packets come to a terminal and wait in the queue of its `MacRle`. From time to time its
requester looks at the queue and sends a capacity request to the hub, where the allocator
keeps it until the next round. The TBTP of the round reaches all MACs, which schedule their
slots, and a slot takes packets out of the queue.

Requests may take any time to the hub and need not come in order, and a slot may begin at any
time after its TBTP. So a run is any sequence of these events that the parts allow.
-/

namespace Mftdma.Dama

open Execution

variable {n nf : ℕ}

/-- What stays as it is: the superframe, the bound variables of the hub, and `win_` of each
requester. -/
structure Setting (n nf : ℕ) where
  cfg : Allocator.Config n nf
  op : Allocator.Operation n
  win : Fin n → ℕ

/-- The parts of the loop. `crs` are the requests that the hub has not received, and `slots`
those that have been scheduled on a MAC and have not begun. -/
structure System (n nf : ℕ) where
  hub : Allocator.Network n nf
  requester : Fin n → Requester.RequesterCombiner
  sender : Fin n → Rle.Sender
  crs : List Requester.CR
  slots : Fin n → List Allocator.Burst

/-- A packet comes to a terminal, its requester expires, the hub receives a request, or
allocates a superframe, or a slot begins. -/
inductive Event (n nf : ℕ) where
  | recv (i : Fin n) (macDA : ℤ) (prio : Fin 8) (size : BitVec 32)
  | dorequest (i : Fin n) (r : Requester.Request)
  | rcvReq (k : ℕ)
  | allocation (passes : ℕ) (locals : Fin 3 → Allocator.Locals nf)
  | slotHandler (i : Fin n) (k : ℕ)

/-- The event at the queue of a terminal that the slot of a burst is. -/
def slotOf (b : Allocator.Burst) : Rle.SenderEvent := .slot (BitVec.ofInt 32 b.size)

namespace System

/-- All parts as their constructors and `init` leave them. -/
def init (al : Allocator.AllocatorMFTDMA n nf) : System n nf where
  hub := { al := al.init, sched := fun _ => [], feedback := 0, utility := 0 }
  requester i := .init i
  sender _ := .init
  crs := []
  slots _ := []

/-- An event at the queue of the terminal `i`. -/
def act (w : System n nf) (i : Fin n) (e : Rle.SenderEvent) : System n nf :=
  { w with sender := Function.update w.sender i ((w.sender i).step e).1 }

/-- A call of `dorequest`: what it adds to `made` goes on its way. -/
def request (set : Setting n nf) (w : System n nf) (i : Fin n) (r : Requester.Request) :
    System n nf :=
  let t := Requester.RequesterCombiner.dorequest (set.win i) r (w.requester i)
  { w with
    requester := Function.update w.requester i t
    crs := w.crs ++ t.made.take (t.made.length - (w.requester i).made.length) }

/-- The hub receives the request `k`. The conversions of a negative rate or volume to the
unsigned fields of the allocator are left out. -/
def receive (set : Setting n nf) (w : System n nf) (k : ℕ) : Option (System n nf) :=
  w.crs[k]?.bind fun cr =>
    if 0 ≤ cr.rate ∧ 0 ≤ cr.volume then
      (Allocator.networkStep set.cfg set.op w.hub
        (.rcvReq cr.slotNum cr.rate.toNat cr.volume.toNat)).map fun hub =>
          { w with hub := hub, crs := w.crs.eraseIdx k }
    else none

/-- A round, and the scheduling of the slots that it grants. The packet of the TBTP has room
for `MAX_SLOTS` descriptors; what a round does that writes more is left out. -/
def allocate (set : Setting n nf) (w : System n nf) (passes : ℕ)
    (locals : Fin 3 → Allocator.Locals nf) : Option (System n nf) :=
  (w.hub.al.stages set.cfg passes locals).bind fun v =>
    if v.bdes.length ≤ Allocator.maxSlots then
      some { w with
        hub := w.hub.finish set.op v
        slots := fun i =>
          w.slots i ++ Allocator.btpDecoding i (set.op.slotPacketLen i) v.bdes }
    else none

/-- The slot `k` of those that are scheduled on the MAC of the terminal `i` begins. -/
def begin (w : System n nf) (i : Fin n) (k : ℕ) : Option (System n nf) :=
  (w.slots i)[k]?.map fun b =>
    { w.act i (slotOf b) with slots := Function.update w.slots i ((w.slots i).eraseIdx k) }

end System

def step (set : Setting n nf) (w : System n nf) : Event n nf → Option (System n nf)
  | .recv i macDA prio size => some (w.act i (.recv macDA prio size))
  | .dorequest i r => some (w.request set i r)
  | .rcvReq k => w.receive set k
  | .allocation passes locals => w.allocate set passes locals
  | .slotHandler i k => w.begin i k

/-- What an event is for the queues of the terminals. -/
def air (w : System n nf) : Event n nf → List (Fin n × Rle.SenderEvent)
  | .recv i macDA prio size => [(i, .recv macDA prio size)]
  | .slotHandler i k => (w.slots i)[k]?.elim [] fun b => [(i, slotOf b)]
  | _ => []

section projection

variable {set : Setting n nf} {w t : System n nf} {e : Event n nf} {es : List (Event n nf)}

@[simp] theorem act_sender_self (i : Fin n) (e : Rle.SenderEvent) :
    (w.act i e).sender i = ((w.sender i).step e).1 := Function.update_self ..

theorem act_sender_of_ne {i j : Fin n} (other : j ≠ i) (e : Rle.SenderEvent) :
    (w.act i e).sender j = w.sender j := Function.update_of_ne other ..

theorem receive_eq_some {k : ℕ} (step : w.receive set k = some t) :
    ∃ cr, w.crs[k]? = some cr ∧ 0 ≤ cr.volume ∧
      t = { w with
        hub.al := w.hub.al.rcvReq set.cfg cr.slotNum cr.rate.toNat cr.volume.toNat
        crs := w.crs.eraseIdx k } := by
  obtain ⟨cr, found, step⟩ := Option.bind_eq_some_iff.mp step
  split_ifs at step with signed
  obtain rfl := Option.some.inj step
  exact ⟨cr, found, signed.2, rfl⟩

theorem allocate_eq_some {passes : ℕ} {locals : Fin 3 → Allocator.Locals nf}
    (step : w.allocate set passes locals = some t) :
    ∃ v, w.hub.al.stages set.cfg passes locals = some v ∧
      t = { w with
        hub := w.hub.finish set.op v
        slots := fun i =>
          w.slots i ++ Allocator.btpDecoding i (set.op.slotPacketLen i) v.bdes } := by
  obtain ⟨v, stages, step⟩ := Option.bind_eq_some_iff.mp step
  split_ifs at step with room
  exact ⟨v, stages, (Option.some.inj step).symm⟩

theorem begin_eq_some {i : Fin n} {k : ℕ} (step : w.begin i k = some t) :
    ∃ b, (w.slots i)[k]? = some b ∧ t =
      { w.act i (slotOf b) with
        slots := Function.update w.slots i ((w.slots i).eraseIdx k) } := by
  obtain ⟨b, found, rfl⟩ := Option.map_eq_some_iff.mp step
  exact ⟨b, found, rfl⟩

end projection

end Mftdma.Dama
