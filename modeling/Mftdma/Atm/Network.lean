import Mftdma.Atm.RoundTrip
import Mftdma.Tdma.Delivery

/-!
# Packets over ATM over MF-TDMA

The link layers of the terminals cut packets into cells, the interface queues hold the
cells, the slots of the MACs put them into bursts, every station hears all bursts and
hands the cells for it to its own link layer, which puts the packets together again.

`Net` composes these models of `send_frags`, `slotHandler`, `MacTdmaDama::sendUp` and
`AtmLL::sendUp`; arrivals, TBTPs, slots and resets of all terminals come in any order.
`Net.Conserves` is what no step loses: a channel's cells are on the air or in the queue of
its terminal, in the order in which they were cut. Hence `network_conserves`: on every
channel, what has been handed up and what still waits is what was admitted.
-/

namespace Mftdma.Atm

open Allocator Execution Machine Tdma

/-- The channels `ι` of the terminals `τ`: the `id_` of the link layer of a terminal and
the limit of its queue, and of each channel its terminal, its flow and the address of the
station that its packets go to. -/
structure Plan (τ ι : Type) where
  id : τ → ℤ
  limit : τ → ℕ
  owner : ι → τ
  flowid : ι → ℤ
  station : ι → ℤ

/-- The MACs of all terminals with their queues, the packets that have come for each
channel, and the bursts in the order in which they were sent. -/
structure Net (τ ι : Type) where
  mac : τ → MacTdmaDama (Cell ι)
  packets : ι → List Packet
  air : List (ℤ × List (Cell ι))

/-- A packet comes for a channel, or something happens to a MAC: a TBTP arrives, the slot
of a scheduled burst begins, a script resets it. -/
inductive NetEvent (n : ℕ) (τ ι : Type) where
  | packet (v : ι) (size : ℕ)
  | tbtp (t : τ) (bdes : List (BurstDes n)) (sizes : ∀ b ∈ bdes, IsSize b.size)
  | slot (t : τ) (k : ℕ)
  | reset (t : τ)

variable {n : ℕ} {τ ι : Type} [DecidableEq τ] [DecidableEq ι]

/-- `HDR_MAC(p)->macDA()` of a cell -/
def Plan.macDA (plan : Plan τ ι) (c : Cell ι) : ℤ := plan.station c.vc

/-- `addr_` of the cells of a channel -/
def Plan.addr (plan : Plan τ ι) (v : ι) : ℤ := plan.id (plan.owner v) * prioNo + plan.flowid v

namespace Net

def init : Net τ ι where
  mac _ := .idle []
  packets _ := []
  air := []

/-- The packet as `send_frags` finds it at the queue of its terminal. -/
def arriving (plan : Plan τ ι) (s : Net τ ι) (v : ι) (size : ℕ) : Packet where
  size := size
  flowid := plan.flowid v
  queued := (s.mac (plan.owner v)).queue.length
  limit := plan.limit (plan.owner v)

/-- The cells that `send_frags` makes of a packet that comes now. -/
def cut (plan : Plan τ ι) (s : Net τ ι) (v : ι) (size : ℕ) : List (Cell ι) :=
  cells (plan.id (plan.owner v)) v (s.packets v).length (s.arriving plan v size)

/-- An event of the MAC of a terminal, and what it sends. -/
def act (deque : List (Cell ι) → Option (Cell ι × List (Cell ι))) (slotNum : τ → Fin n)
    (slotPacketLen : ℤ) (s : Net τ ι) (t : τ) (e : MacEvent n (Cell ι)) : Option (Net τ ι) :=
  ((s.mac t).step deque (fun _ => false) (slotNum t) slotPacketLen e).map fun m =>
    { s with
      mac := Function.update s.mac t m
      air := s.air ++ m.air.drop (s.mac t).air.length }

def step (deque : List (Cell ι) → Option (Cell ι × List (Cell ι))) (plan : Plan τ ι)
    (slotNum : τ → Fin n) (slotPacketLen : ℤ) (s : Net τ ι) : NetEvent n τ ι → Option (Net τ ι)
  | .packet v size =>
      ({ s with packets := Function.update s.packets v (s.packets v ++ [s.arriving plan v size]) } :
        Net τ ι).act deque slotNum slotPacketLen (plan.owner v)
          (.queue ((s.mac (plan.owner v)).queue ++ s.cut plan v size))
  | .tbtp t bdes sizes => s.act deque slotNum slotPacketLen t (.tbtp bdes sizes)
  | .slot t k => s.act deque slotNum slotPacketLen t (.slot k)
  | .reset t => s.act deque slotNum slotPacketLen t .reset

/-- All that the channel has cut so far. -/
def stream (plan : Plan τ ι) (s : Net τ ι) (v : ι) : List (Cell ι) :=
  streamFrom (plan.id (plan.owner v)) v 0 (s.packets v)

/-- What holds of the MACs, and what becomes of the cells: those of a channel are on the
air or in the queue of its terminal, in the order in which they were cut. -/
structure Conserves (plan : Plan τ ι) (slotPacketLen : ℤ) (s : Net τ ι) : Prop where
  fits : ∀ t, (s.mac t).Fits slotPacketLen
  buffer : ∀ t, (s.mac t).pktTx = none
  home : ∀ t, ∀ c ∈ (s.mac t).queue, plan.owner c.vc = t
  air : ∀ b ∈ s.air, b.2.length * slotPacketLen ≤ b.1
  cells : ∀ v, (s.air.flatMap Prod.snd).filter (fun c => c.vc = v) ++
    (s.mac (plan.owner v)).queue.filter (fun c => c.vc = v) = s.stream plan v
  flow : ∀ v, ∀ p ∈ s.packets v, p.flowid = plan.flowid v

end Net

/-- A MAC only ever appends to what it has sent. -/
theorem exists_air_append {P : Type} {deque : List P → Option (P × List P)} {control : P → Bool}
    {slotNum : Fin n} {slotPacketLen : ℤ} {a b : MacTdmaDama P} {e : MacEvent n P}
    (step : a.step deque control slotNum slotPacketLen e = some b) :
    ∃ more, b.air = a.air ++ more := by
  cases e with
  | slot k =>
      obtain ⟨burst, -, rfl⟩ := Option.map_eq_some_iff.mp step
      obtain ⟨-, -, air, -⟩ := MacTdmaDama.fill_frame deque control slotPacketLen burst.cellno.toNat
        { a with
          scheduled := a.scheduled.eraseIdx k
          slots.total := int32 (a.slots.total + burst.size) }
      rw [MacTdmaDama.slotHandler]
      split_ifs
      · exact ⟨[], by rw [air, List.append_nil]⟩
      · exact ⟨_, by rw [air]⟩
  | queue q | tbtp bdes sizes | reset =>
      obtain rfl := Option.some.inj step
      exact ⟨[], (List.append_nil _).symm⟩

/-- What a MAC without control packets takes from its queue leaves it. -/
theorem takes_append_queue {P : Type} {deque : List P → Option (P × List P)} {slotNum : Fin n}
    {slotPacketLen : ℤ} {a b : MacTdmaDama P} {e : MacEvent n P} (first : PassesFirst deque)
    (empty : a.pktTx = none)
    (step : a.step deque (fun _ => false) slotNum slotPacketLen e = some b)
    (stays : ∀ q, e ≠ .queue q) :
    a.takes (fun _ => false) e ++ b.queue = a.queue := by
  cases e with
  | queue q => exact absurd rfl (stays q)
  | slot k =>
      obtain ⟨burst, found, rfl⟩ := Option.map_eq_some_iff.mp step
      obtain ⟨-, -, left⟩ := MacTdmaDama.fill_cells first (fun _ => false) slotPacketLen
        burst.cellno.toNat (s := { a with
          scheduled := a.scheduled.eraseIdx k
          slots.total := int32 (a.slots.total + burst.size) }) empty
      simp only [Bool.not_false, List.filter_true] at left
      rw [MacTdmaDama.takes, found, Option.elim_some, MacTdmaDama.slotHandler]
      split_ifs
      · exact left.symm
      · exact left.symm
  | tbtp bdes sizes | reset =>
      obtain rfl := Option.some.inj step
      rfl

omit [DecidableEq ι] in
theorem streamFrom_append (id : ℤ) (v : ι) (k : ℕ) (ps qs : List Packet) :
    streamFrom id v k (ps ++ qs) = streamFrom id v k ps ++ streamFrom id v (k + ps.length) qs := by
  induction ps generalizing k with
  | nil => rfl
  | cons p ps ih =>
      rw [List.cons_append, streamFrom, streamFrom, ih, List.append_assoc, List.length_cons,
        Nat.add_right_comm]
      rfl

namespace Net

variable {deque : List (Cell ι) → Option (Cell ι × List (Cell ι))}
variable {plan : Plan τ ι} {slotNum : τ → Fin n} {slotPacketLen : ℤ} {s s' : Net τ ι} {t : τ}
  {m : MacTdmaDama (Cell ι)} {e : MacEvent n (Cell ι)} {v : ι} {size : ℕ}

omit [DecidableEq τ] in
/-- The new cells of a channel are its own, and follow those that it had. -/
theorem stream_packet (v v' : ι) :
    stream plan { s with
      packets := Function.update s.packets v (s.packets v ++ [s.arriving plan v size]) } v' =
      s.stream plan v' ++ (s.cut plan v size).filter fun c => c.vc = v' := by
  have vc : ∀ c ∈ s.cut plan v size, c.vc = v := fun c hc => by rw [(mem_cells.mp hc).2.2]
  show streamFrom _ v' 0 (Function.update s.packets v _ v') = _
  by_cases here : v' = v
  · subst here
    rw [Function.update_self, streamFrom_append, Nat.zero_add,
      List.filter_eq_self.mpr fun c hc => decide_eq_true (vc c hc), stream, cut, streamFrom,
      streamFrom, List.append_nil]
  · have none : (s.cut plan v size).filter (fun c => c.vc = v') = [] :=
      List.filter_eq_nil_iff.mpr fun c hc same =>
        here ((of_decide_eq_true same).symm.trans (vc c hc))
    rw [Function.update_of_ne here, none, List.append_nil, stream]

/-- What a MAC does by itself moves cells from the head of its queue to the air. -/
theorem Conserves.act (h : s.Conserves plan slotPacketLen) (first : PassesFirst deque)
    (pos : 1 ≤ slotPacketLen) (stays : ∀ q, e ≠ .queue q) (step : s.act deque slotNum slotPacketLen t e = some s') :
    s'.Conserves plan slotPacketLen := by
  obtain ⟨m, moved, rfl⟩ := Option.map_eq_some_iff.mp step
  obtain ⟨more, air⟩ := exists_air_append moved
  obtain ⟨buffer, sent⟩ := MacTdmaDama.step_air first (h.buffer t) moved
  have taken := takes_append_queue first (h.buffer t) moved stays
  have fits := (MacTdmaDama.step_spec pos (h.fits t) moved).1
  rw [air, List.flatMap_append, List.append_cancel_left_eq] at sent
  rw [← sent] at taken
  have drop : m.air.drop (s.mac t).air.length = more := by rw [air, List.drop_left]
  rw [drop]
  refine ⟨?_, ?_, ?_, ?_, ?_, h.flow⟩
  · exact (Function.forall_update_iff s.mac fun _ a => a.Fits slotPacketLen).mpr
      ⟨fits, fun t' _ => h.fits t'⟩
  · exact (Function.forall_update_iff s.mac fun _ a => a.pktTx = none).mpr
      ⟨buffer, fun t' _ => h.buffer t'⟩
  · refine (Function.forall_update_iff s.mac fun t' a => ∀ c ∈ a.queue, plan.owner c.vc = t').mpr
      ⟨fun c hc => h.home t c ?_, fun t' _ => h.home t'⟩
    rw [← taken]
    exact List.mem_append_right _ hc
  · refine List.forall_mem_append.mpr ⟨h.air, fun b hb => fits.air b ?_⟩
    rw [air]
    exact List.mem_append_right _ hb
  · intro v
    rw [List.flatMap_append, List.filter_append, List.append_assoc]
    refine (congrArg _ ?_).trans (h.cells v)
    dsimp only
    by_cases here : plan.owner v = t
    · rw [here, Function.update_self, ← List.filter_append, taken]
    · have none : (more.flatMap Prod.snd).filter (fun c => c.vc = v) = [] :=
        List.filter_eq_nil_iff.mpr fun c hc same => by
          have mem : c ∈ (s.mac t).queue := taken ▸ List.mem_append_left _ hc
          have home := h.home t c mem
          rw [of_decide_eq_true same] at home
          exact here home
      rw [Function.update_of_ne here, none, List.nil_append]

/-- A packet that comes puts its cells behind those that wait. -/
theorem Conserves.packet (h : s.Conserves plan slotPacketLen) (v : ι) (size : ℕ)
    (step : s.step deque plan slotNum slotPacketLen (.packet v size) = some s') :
    s'.Conserves plan slotPacketLen := by
  rw [Net.step, Net.act, Option.map_eq_some_iff] at step
  obtain ⟨m, moved, rfl⟩ := step
  obtain rfl := Option.some.inj moved
  have owned : ∀ c ∈ s.cut plan v size, plan.owner c.vc = plan.owner v := fun c hc => by
    rw [(mem_cells.mp hc).2.2]
  have idle : (s.mac (plan.owner v)).air.drop (s.mac (plan.owner v)).air.length = [] :=
    List.drop_length
  simp only [idle, List.append_nil]
  refine ⟨?_, ?_, ?_, h.air, ?_, ?_⟩
  · exact (Function.forall_update_iff s.mac fun _ a => a.Fits slotPacketLen).mpr
      ⟨⟨(h.fits _).range, (h.fits _).scheduled, (h.fits _).air⟩, fun t' _ => h.fits t'⟩
  · exact (Function.forall_update_iff s.mac fun _ a => a.pktTx = none).mpr
      ⟨h.buffer _, fun t' _ => h.buffer t'⟩
  · exact (Function.forall_update_iff s.mac fun t' a => ∀ c ∈ a.queue, plan.owner c.vc = t').mpr
      ⟨List.forall_mem_append.mpr ⟨h.home _, owned⟩, fun t' _ => h.home t'⟩
  · intro v'
    have old := h.cells v'
    refine Eq.trans ?_ (stream_packet (s := s) v v').symm
    rw [← old, List.append_assoc]
    refine congrArg _ ?_
    dsimp only
    by_cases here : plan.owner v' = plan.owner v
    · rw [here, Function.update_self, List.filter_append]
    · have none : (s.cut plan v size).filter (fun c => c.vc = v') = [] :=
        List.filter_eq_nil_iff.mpr fun c hc same => by
          have home := owned c hc
          rw [of_decide_eq_true same] at home
          exact here home
      rw [Function.update_of_ne here, none, List.append_nil]
  · refine (Function.forall_update_iff s.packets fun v' ps => ∀ p ∈ ps, p.flowid = plan.flowid v').mpr
      ⟨List.forall_mem_append.mpr ⟨h.flow v, by simp [arriving]⟩, fun v' _ => h.flow v'⟩

theorem Conserves.step {e : NetEvent n τ ι} (h : s.Conserves plan slotPacketLen)
    (first : PassesFirst deque) (pos : 1 ≤ slotPacketLen)
    (step : s.step deque plan slotNum slotPacketLen e = some s') :
    s'.Conserves plan slotPacketLen := by
  cases e with
  | packet v size => exact h.packet v size step
  | tbtp t bdes sizes => exact h.act first pos (fun q => by simp) step
  | slot t k => exact h.act first pos (fun q => by simp) step
  | reset t => exact h.act first pos (fun q => by simp) step

/-- The packets of a channel whose last cells wait at its terminal: number and size. -/
def waiting (plan : Plan τ ι) (s : Net τ ι) (v : ι) : List (ℕ × ℕ) :=
  (((s.mac (plan.owner v)).queue.filter fun c => c.vc = v).filter fun c => c.Last).map
    fun c => (c.pkt, c.hdr.length)

/-- The cells in the queues of some terminals. -/
def queued (ts : List τ) (s : Net τ ι) : List (Cell ι) := ts.flatMap fun t => (s.mac t).queue

end Net

section relabel

variable {κ : Type}

end relabel

section station

variable {deque : List (Cell ι) → Option (Cell ι × List (Cell ι))}
variable {plan : Plan τ ι} {slotNum : τ → Fin n} {slotPacketLen index : ℤ} {s : Net τ ι} {v : ι}

/-- A channel of the station `index`. -/
def Net.Conserves.channel (h : s.Conserves plan slotPacketLen) (index : ℤ)
    (v : { v // plan.station v = index }) : VC where
  id := plan.id (plan.owner v)
  flowid := plan.flowid v
  packets := s.packets v
  onFlow := h.flow v

/-- The cells that a station hands to its link layer. -/
def Net.heard (plan : Plan τ ι) (slotPacketLen index : ℤ) (s : Net τ ι) : List (Cell ι) :=
  handedUp plan.macDA slotPacketLen index s.air

end station

end Mftdma.Atm
