import Mathlib.Algebra.Order.Floor.Div
import Mftdma.Atm.Segmenter

/-!
# All cells of a packet or none

`AtmLL::send_frags` asks the interface queue whether all cells of a packet have room before
it makes the first of them, and the queue decides again about each cell that arrives. The
queue is not part of this code. `Ifq` names what is used of it, and `Ifq.DropTail` what its
drop-tail discipline promises; between two cells it may hand packets on to the MAC.
-/

namespace Mftdma.Atm

universe u

/-- An interface queue with the states `Q`: the calls that `send_frags` and `sendDown` make. -/
structure Ifq (Q : Type u) where
  length : Q → ℕ
  limit : Q → ℤ
  drops : Q → Header → Bool
  recv : Q → Header → Q

/-- A packet is dropped when it would bring the queue to its limit, and nothing but a packet
that arrives makes the queue longer. -/
structure Ifq.DropTail {Q : Type u} (ifq : Ifq Q) : Prop where
  drops_iff : ∀ q c, ifq.drops q c = true ↔ ifq.limit q ≤ ifq.length q + 1
  limit_recv : ∀ q c, ifq.limit (ifq.recv q c) = ifq.limit q
  length_recv : ∀ q c, ifq.length (ifq.recv q c) ≤ ifq.length q + 1

/-- A cell that came to the queue, and whether it was dropped there. -/
structure Arrival where
  cell : Header
  dropped : Bool
deriving DecidableEq

namespace Ifq

variable {Q : Type u} (ifq : Ifq Q)

/-- `sendDown` for each cell in turn. -/
def sendDown : Q → List Header → List Arrival × Q
  | q, [] => ([], q)
  | q, c :: cs =>
      let rest := sendDown (ifq.recv q c) cs
      (⟨c, ifq.drops q c⟩ :: rest.1, rest.2)

/-- The packet as `send_frags` finds it: a limit below zero admits nothing, like zero. -/
def packet (size : ℕ) (flowid : ℤ) (q : Q) : Packet where
  size := size
  flowid := flowid
  queued := ifq.length q
  limit := (ifq.limit q).toNat

/-- `send_frags` on a packet of this size, and what becomes of its cells. -/
def sendFrags (id flowid : ℤ) (size : ℕ) (q : Q) : List Arrival × Q :=
  ifq.sendDown q (Atm.sendFrags id (ifq.packet size flowid q))

/-- All cells of a packet, or none of them, are in the queue. -/
structure AllOrNothing (size : ℕ) (arrivals : List Arrival) : Prop where
  kept : ∀ a ∈ arrivals, a.dropped = false
  whole : arrivals = [] ∨ arrivals.length = (size + trlLen) ⌈/⌉ 48

variable {ifq} {q : Q} {size : ℕ} {flowid : ℤ}

/-- As many cells as it takes to hold the packet and its trailer. -/
theorem frags_eq_ceilDiv (p : Packet) : p.frags = (p.size + trlLen) ⌈/⌉ 48 := by
  rw [Nat.ceilDiv_eq_add_pred_div]
  rfl

theorem admitted_iff : (ifq.packet size flowid q).Admitted ↔
    (ifq.length q : ℤ) + (ifq.packet size flowid q).frags < ifq.limit q := by
  have some := (ifq.packet size flowid q).frags_pos
  show ¬ ifq.length q + _ ≥ (ifq.limit q).toNat ↔ _
  omega

/-- While the room lasts, each cell is kept. -/
theorem DropTail.sendDown_kept (law : ifq.DropTail) (cs : List Header) (q : Q)
    (room : (ifq.length q : ℤ) + cs.length < ifq.limit q) :
    (∀ a ∈ (ifq.sendDown q cs).1, a.dropped = false) ∧
      (ifq.sendDown q cs).1.length = cs.length := by
  induction cs generalizing q with
  | nil => exact ⟨by simp [sendDown], rfl⟩
  | cons c cs ih =>
      rw [List.length_cons] at room
      have kept : ifq.drops q c = false := by
        apply Bool.eq_false_iff.mpr
        intro dropped
        have := (law.drops_iff q c).mp dropped
        omega
      have after : (ifq.length (ifq.recv q c) : ℤ) + cs.length < ifq.limit (ifq.recv q c) := by
        have := law.length_recv q c
        rw [law.limit_recv]
        omega
      obtain ⟨rest, count⟩ := ih _ after
      exact ⟨List.forall_mem_cons.mpr ⟨kept, rest⟩, congrArg (· + 1) count⟩

/-- The admission test of the link layer leaves room for each of the cells, so either all of
them enter the queue or none is sent. -/
theorem sendFrags_allOrNothing (law : ifq.DropTail) (id flowid : ℤ) (size : ℕ) (q : Q) :
    AllOrNothing size (ifq.sendFrags id flowid size q).1 := by
  by_cases admitted : (ifq.packet size flowid q).Admitted
  · have cells : Atm.sendFrags id (ifq.packet size flowid q) =
        (List.range (ifq.packet size flowid q).frags).map ((ifq.packet size flowid q).copy id) :=
      if_neg admitted
    have count : (Atm.sendFrags id (ifq.packet size flowid q)).length =
        (ifq.packet size flowid q).frags := by
      rw [cells, List.length_map, List.length_range]
    obtain ⟨kept, length⟩ := law.sendDown_kept (Atm.sendFrags id (ifq.packet size flowid q)) q
      (by rw [count]; exact admitted_iff.mp admitted)
    refine ⟨kept, .inr ?_⟩
    rw [sendFrags, length, count, frags_eq_ceilDiv]
    rfl
  · have none : Atm.sendFrags id (ifq.packet size flowid q) = [] := if_pos (not_not.mp admitted)
    have arrivals : (ifq.sendFrags id flowid size q).1 = [] := by
      rw [sendFrags, none]
      rfl
    rw [arrivals]
    exact ⟨by simp, .inl rfl⟩

/-- A blocked queue of the given limit: what arrives stays. -/
def blocked (limit : ℤ) : Ifq (List Header) where
  length := List.length
  limit _ := limit
  drops q _ := limit ≤ q.length + 1
  recv q c := if limit ≤ q.length + 1 then q else q ++ [c]

theorem blocked_dropTail (limit : ℤ) : (blocked limit).DropTail where
  drops_iff q c := decide_eq_true_iff
  limit_recv q c := rfl
  length_recv q c := by
    simp only [blocked]
    split <;> simp

/-- Three cells fit into a queue of four only while it is empty. -/
theorem sendFrags_allOrNothing_blocked :
    AllOrNothing 100 ((blocked 4).sendFrags 1 0 100 []).1 ∧
      ((blocked 4).sendFrags 1 0 100 []).2.length = 3 :=
  ⟨sendFrags_allOrNothing (blocked_dropTail 4) 1 0 100 [], by decide⟩

end Ifq

end Mftdma.Atm
