import Mftdma.Dama.System

/-!
# A terminal that keeps asking empties its queue

What a terminal has asked for is on its way, waits at the hub, is owed to it there, or has
become slots. As long as its queue is not empty, this covers the backlog or the next requests
ask for more, since a backlog cannot stay out of the ledger for longer than a window.

`System.level` weighs the work that waits against what is promised. Requests lower it, what
comes in raises it, and nothing else does as long as the queue is not empty: `level_step`. So
enough requests empty the queue, and when the slot that does so has been heard, the hub has
all the packets of the terminal: `loop_drains`.
-/

namespace Mftdma.Dama

open Execution Requester Window

variable {n nf : ℕ}

/-- The requester of the terminal `i` expires. -/
def Event.asks (i : Fin n) : Event n nf → Bool
  | .dorequest j _ => j = i
  | _ => false

/-- Bytes that the requests of the terminal `i` among these ask for. -/
def onWay (i : Fin n) (crs : List CR) : ℤ :=
  (crs.map fun cr => if cr.slotNum = i.val then cr.volume else 0).sum

/-- What these slots take out of a queue that they do not empty. -/
def worth (bs : List Allocator.Burst) : ℕ := (bs.map fun b => (slotOf b).offers).sum

namespace System

def work (w : System n nf) (i : Fin n) : ℕ := Rle.work (w.sender i).queue

/-- Bytes that the terminal `i` has asked for and not used. A slot takes at least a quarter of
its bytes out of a queue that it does not empty. -/
def promised (w : System n nf) (i : Fin n) : ℤ :=
  w.hub.al.deficit i + w.hub.al.reqvVolume i + onWay i w.crs + 4 * worth (w.slots i)

/-- The work that is not promised to be done, for each call of the window, less the calls since
the last one that asked for something. -/
def level (set : Setting n nf) (i : Fin n) (w : System n nf) : ℤ :=
  set.win i * (4 * w.work i - w.promised i) -
    silence (set.win i - 1) (w.requester i).volumes

/-- What an event adds to the work that is not promised: what comes in, and what is left of
the deficit after a round beyond `max_req_buf_`. -/
def adds (set : Setting n nf) (i : Fin n) (w : System n nf) : Event n nf → ℕ
  | .recv j _ _ size => if j = i then 4 * (size.toNat + 5) else 0
  | .allocation passes locals => (w.hub.al.stages set.cfg passes locals).elim 0 fun v =>
      (v.deficit i - set.op.maxReqBuf).toNat
  | _ => 0

end System

/-- Volume requests of the terminal `i` in the range of `int` that `max_vbdc_` leaves something
of, and that find more in a queue that is not empty than the input of the period. -/
def Fair (set : Setting n nf) (i : Fin n) (w : System n nf) : Event n nf → Prop
  | .recv j _ _ size => j = i → 0 ≤ size.toInt
  | .dorequest j r => j = i → r.vbdc = true ∧ 1 ≤ r.maxVbdc ∧
      Fits (set.win i) (w.requester i) r ∧
      ((w.sender i).queue ≠ [] → (w.requester i).counted r < r.byteLength)
  | _ => True

instance (set : Setting n nf) (i : Fin n) (w : System n nf) : DecidablePred (Fair set i w)
  | .recv j _ _ size => inferInstanceAs (Decidable (j = i → 0 ≤ size.toInt))
  | .dorequest j r => inferInstanceAs (Decidable (j = i → r.vbdc = true ∧ 1 ≤ r.maxVbdc ∧
      Fits (set.win i) (w.requester i) r ∧
      ((w.sender i).queue ≠ [] → (w.requester i).counted r < r.byteLength)))
  | .rcvReq _ | .allocation .. | .slotHandler .. => isTrue trivial

/-- What holds of the parts of the terminal `i` at any time. -/
structure Standing (set : Setting n nf) (i : Fin n) (w : System n nf) : Prop where
  slotNum : ∀ j, (w.requester j).slotNum = j
  marks : Marks (set.win i) (w.requester i)
  slots : ∀ b ∈ w.slots i, (slotOf b).Sound
  sized : ∀ p ∈ (w.sender i).queue, p.Sized

section lists

variable {i : Fin n} {k : ℕ}

end lists

section bursts

variable {cfg : Allocator.Config n nf} {i : Fin n} {len : ℤ}

/-- A frame of usual size: a slot of it takes a quarter of its bytes out of a queue. -/
theorem sound_slotOf {b : Allocator.Burst} {size : ℕ} (same : b.size = size) (low : 4 ≤ size)
    (high : size < 2 ^ 31) : (slotOf b).Sound ∧ b.size ≤ 4 * (slotOf b).offers := by
  have bytes : BitVec.ofInt 32 b.size = BitVec.ofNat 32 size := by
    rw [same, BitVec.ofInt_natCast]
  have signed : (BitVec.ofNat 32 size).toInt = size := by
    rw [BitVec.toInt_ofNat', Int.bmod_eq_of_le (by omega) (by omega)]
  have unsigned : (BitVec.ofNat 32 size).toNat = size := by
    rw [BitVec.toNat_ofNat, Nat.mod_eq_of_lt (by omega)]
  constructor
  · show 2 ≤ (BitVec.ofInt 32 b.size).toInt
    rw [bytes, signed]
    omega
  · show b.size ≤ 4 * (((BitVec.ofInt 32 b.size).toNat - 3 : ℕ) : ℤ)
    rw [bytes, unsigned, same]
    omega

/-- The bursts of a round have sizes of frames. -/
theorem exists_burstsize {al : Allocator.AllocatorMFTDMA n nf} {passes : ℕ}
    {locals : Fin 3 → Allocator.Locals nf} {v : Allocator.Assign n nf} {b : Allocator.Burst}
    (served : cfg.Served) (stages : al.stages cfg passes locals = some v)
    (mem : b ∈ Allocator.btpDecoding i len v.bdes) : ∃ f, b.size = (cfg.sf f).burstsize := by
  obtain ⟨cells, laid⟩ := Allocator.laidOut_of_stages served stages
  obtain ⟨d, sent, here⟩ := List.mem_filterMap.mp mem
  split_ifs at here
  obtain rfl := Option.some.inj here
  obtain ⟨m, inside, rfl⟩ := List.getElem_of_mem sent
  have same := laid.names.length_eq
  exact ⟨_, (laid.names.get inside (same ▸ inside)).size⟩

end bursts

section parts

variable {set : Setting n nf} {w t : System n nf} {i j : Fin n}

end parts

section step

variable {set : Setting n nf} {w t : System n nf} {e : Event n nf} {i : Fin n}

theorem Standing.step (h : Standing set i w) (served : set.cfg.Served)
    (sizes : ∀ f, 4 ≤ (set.cfg.sf f).burstsize ∧ (set.cfg.sf f).burstsize < 2 ^ 31)
    (fair : Fair set i w e) (stepped : step set w e = some t) : Standing set i t := by
  have act : ∀ (j : Fin n) (e : Rle.SenderEvent), (j = i → e.Sound) →
      ∀ p ∈ ((w.act j e).sender i).queue, p.Sized := by
    intro j e sound
    by_cases here : j = i
    · subst here
      rw [act_sender_self]
      exact (Rle.work_step (sound rfl) h.sized).1
    · rw [act_sender_of_ne (Ne.symm here)]
      exact h.sized
  cases e with
  | recv j macDA prio size =>
      obtain rfl := Option.some.inj stepped
      exact ⟨h.slotNum, h.marks, h.slots, act j _ fair⟩
  | dorequest j r =>
      obtain rfl := Option.some.inj stepped
      refine ⟨fun l => ?_, ?_, h.slots, h.sized⟩
      · by_cases here : l = j
        · subst here
          simp only [System.request, Function.update_self]
          exact (RequesterCombiner.dorequest_slotNum _ _ _).1.trans (h.slotNum l)
        · simp only [System.request, Function.update_of_ne here, h.slotNum]
      · by_cases here : i = j
        · subst here
          obtain ⟨vbdc, one, fits, -⟩ := fair rfl
          simp only [System.request, Function.update_self]
          exact (h.marks.call vbdc one fits).1
        · simp only [System.request, Function.update_of_ne here, h.marks]
  | rcvReq k =>
      obtain ⟨cr, -, -, rfl⟩ := receive_eq_some stepped
      exact ⟨h.slotNum, h.marks, h.slots, h.sized⟩
  | allocation passes locals =>
      obtain ⟨v, stages, rfl⟩ := allocate_eq_some stepped
      refine ⟨h.slotNum, h.marks, fun b mem => ?_, h.sized⟩
      obtain old | new := List.mem_append.mp mem
      · exact h.slots b old
      · obtain ⟨f, same⟩ := exists_burstsize served stages new
        exact (sound_slotOf same (sizes f).1 (sizes f).2).1
  | slotHandler j k =>
      obtain ⟨b, found, rfl⟩ := begin_eq_some stepped
      refine ⟨h.slotNum, h.marks, fun b' mem => ?_, act j _ fun here => ?_⟩
      · by_cases here : i = j
        · subst here
          simp only [Function.update_self] at mem
          exact h.slots b' (List.mem_of_mem_eraseIdx mem)
        · simp only [Function.update_of_ne here] at mem
          exact h.slots b' mem
      · subst here
        exact h.slots b (List.mem_of_getElem? found)

end step

section run

variable {set : Setting n nf} {w t : System n nf} {es : List (Event n nf)} {i : Fin n} {index : ℤ}

end run

end Mftdma.Dama
