import Mftdma.Mpeg.Stream

/-!
# What the header of a cell counts

With one next hop every fragment goes into the payload of the open cell, whose header
takes its bytes off `dvb_space_`. `Charged` says that the payload, the byte that `pusi_`
costs and `dvb_space_` make up the 184 bytes of the cell, and that no cell was sent with
more than these.
-/

namespace Mftdma.Mpeg

open Execution

/-- The byte for the payload pointer. -/
def Cell.pointer (c : Cell) : ℕ := if c.pusi then 1 else 0

namespace MpegLL

/-- The header of the open cell accounts for all of its bytes, and no cell that was sent
has too many. -/
structure Charged (q : Slot) (s : MpegLL) : Prop where
  sent : ∀ c ∈ s.sent, bytes (s.heap c.payload) + c.pointer ≤ 184
  room : ∀ c, s.txBuffer q = some c → bytes (s.heap c.payload) + c.pointer + c.dvbSpace = 184

end MpegLL

namespace Packing

open MpegLL

variable {a b : Packing} {s : MpegLL} {p : Packet} {id d : ℕ}

theorem charged_start (charged : s.Charged (home d)) (h : Single id d s) :
    ((start id s p (home d)).hold (home d)).Charged (home d) := by
  cases held : s.txBuffer (home d) with
  | some c =>
      rw [start_of_some held]
      refine ⟨charged.sent, fun e he => ?_⟩
      obtain rfl := Option.some.inj ((store_self s (home d) _).symm.trans he)
      exact charged.room c held
  | none =>
      rw [start_of_none held]
      refine ⟨fun e he => ?_, fun e he => ?_⟩
      · have older : e.payload ≠ s.fresh := (h.placed.made e (.inr he)).ne
        show bytes (Function.update s.heap s.fresh [] e.payload) + e.pointer ≤ 184
        rw [Function.update_of_ne older]
        exact charged.sent e he
      · obtain rfl := Option.some.inj ((store_self _ (home d) _).symm.trans he)
        show bytes (Function.update s.heap s.fresh [] s.fresh) + 1 + 183 = 184
        rw [Function.update_self]
        rfl

/-- What is inserted counts in the open cell, and in no cell that was sent. -/
theorem bytes_insertFrag (charged : (a.hold (home d)).Charged (home d))
    (h : Single id d (a.hold (home d))) (fsize : ℕ) :
    bytes ((a.ll.insertFrag p fsize).heap a.cell.payload) + a.cell.pointer + a.cell.dvbSpace =
        184 + fsize ∧
      ∀ e ∈ a.ll.sent, bytes ((a.ll.insertFrag p fsize).heap e.payload) + e.pointer ≤ 184 := by
  have here : (a.hold (home d)).txBuffer (home d) = some a.cell := store_self a.ll _ _
  have current : a.cell.payload = a.ll.payload := (h.own a.cell here).2
  constructor
  · have before := charged.room a.cell here
    rw [hold_heap] at before
    rw [current, insertFrag_heap_self, ← current, bytes_snoc]
    omega
  · intro e he
    have apart : e.payload ≠ a.ll.payload := by
      rw [← current]
      exact h.placed.alone _ a.cell here e (.inr he)
    rw [insertFrag_heap_of_ne apart]
    exact charged.sent e he

theorem charged_pass (charged : (a.hold (home d)).Charged (home d))
    (h : Single id d (a.hold (home d))) :
    (((fill id p (home d)).body a).hold (home d)).Charged (home d) := by
  have here : (a.hold (home d)).txBuffer (home d) = some a.cell := store_self a.ll _ _
  obtain ⟨last, others⟩ := bytes_insertFrag (p := p) charged h a.cell.dvbSpace
  have kept : ∀ e, (a.hold (home d)).Carries e →
      (((fill id p (home d)).body a).hold (home d)).heap e.payload =
        (a.ll.insertFrag p a.cell.dvbSpace).heap e.payload :=
    fun e he => Function.update_of_ne (h.placed.made e he).ne _ _
  refine ⟨fun e he => ?_, fun e he => ?_⟩
  · obtain old | new := List.mem_append.mp he
    · rw [kept e (.inr old)]
      exact others e old
    · obtain rfl := List.mem_singleton.mp new
      rw [kept _ (carries_of_txBuffer here)]
      omega
  · obtain rfl := Option.some.inj ((store_self _ (home d) _).symm.trans he)
    show bytes (Function.update (a.ll.insertFrag p a.cell.dvbSpace).heap a.ll.fresh [] a.ll.fresh) +
      0 + 184 = 184
    rw [Function.update_self]
    rfl

theorem charged_finish (charged : (a.hold (home d)).Charged (home d))
    (h : Single id d (a.hold (home d))) (fits : a.psize ≤ a.cell.dvbSpace) :
    (a.finish p (home d)).Charged (home d) := by
  obtain ⟨last, others⟩ := bytes_insertFrag (p := p) charged h a.psize
  have pointer : a.closing.pointer = a.cell.pointer := rfl
  rw [finish]
  split_ifs with full
  · refine ⟨fun e he => ?_, fun e he => ?_⟩
    · obtain old | new := List.mem_append.mp he
      · exact others e old
      · obtain rfl := List.mem_singleton.mp new
        show bytes ((a.ll.insertFrag p a.psize).heap a.cell.payload) + a.closing.pointer ≤ 184
        omega
    · rw [store_self] at he
      cases he
  · refine ⟨others, fun e he => ?_⟩
    obtain rfl := Option.some.inj ((store_self _ (home d) _).symm.trans he)
    show bytes ((a.ll.insertFrag p a.psize).heap a.cell.payload) + a.closing.pointer +
      (a.cell.dvbSpace - a.psize) = 184
    omega

end Packing

namespace MpegLL

variable {s t : MpegLL} {id d : ℕ} {e : Event} {es : List Event}

theorem charged_init (q : Slot) : init.Charged q where
  sent c hc := by cases hc
  room c hc := by cases hc

theorem Charged.step (charged : s.Charged (home d)) (h : Single id d s) (comes : Comes d s e)
    (stepped : Mpeg.step id s e = some t) : t.Charged (home d) := by
  cases e with
  | send p =>
      obtain ⟨a, visited, fits, rfl⟩ := h.exists_send comes stepped
      obtain ⟨_, filling⟩ := h.filling_of_visits comes visited
      apply Packing.charged_finish _ filling.single fits
      apply visited.invariant (I := fun b => (b.hold (home d)).Charged (home d))
      · exact Packing.charged_start charged h
      · intro b before charged _
        obtain ⟨_, filling⟩ := h.filling_of_visits comes before
        exact Packing.charged_pass charged filling.single
  | timer q =>
      obtain ⟨c, held, rfl, rfl⟩ := h.timer_eq_some stepped
      refine ⟨fun e he => ?_, fun e he => ?_⟩
      · obtain old | new := List.mem_append.mp he
        · exact charged.sent e old
        · obtain rfl := List.mem_singleton.mp new
          have room := charged.room _ held
          show bytes (s.heap e.payload) + e.pointer ≤ 184
          omega
      · rw [store_self] at he
        cases he
  | receive pid frags => exact absurd comes not_false

/-- What holds of a station with one next hop after every run. -/
theorem single_run (comes : Along (Mpeg.step id) (Comes d) init es)
    (reach : run (Mpeg.step id) init es = some t) : Single id d t ∧ t.Charged (home d) := by
  apply run_invariant_along (I := fun s => Single id d s ∧ s.Charged (home d))
    ⟨single_init, charged_init _⟩ comes _ reach
  rintro a e b ⟨single, charged⟩ comes stepped
  exact ⟨(single.step comes stepped).1, charged.step single comes stepped⟩

end MpegLL

end Mftdma.Mpeg
