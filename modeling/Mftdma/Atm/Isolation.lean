import Mathlib.Data.Set.Function
import Mftdma.Atm.Receiver

/-!
# Isolation of virtual channels

The receiver tells cells apart by their address alone, and what it does for one address
depends on the cells of this address only: `hears_lane` projects a run of the receiver
onto an address. The pair of `id_` and `flowid` that a cell is from is therefore
isolated from the others exactly when no other pair has the address
`id_ * ATM_PRIO_NO + flowid` as well, and nothing in `send_frags` keeps `flowid` below
`ATM_PRIO_NO`.
-/

namespace Mftdma.Atm

open Execution

/-- A flow of the `AtmLL` with the number `id`. -/
@[ext] structure Pair where
  id : ℤ
  flowid : ℤ
deriving DecidableEq

/-- `id_ * ATM_PRIO_NO + ip->flowid()` -/
def Pair.addr (v : Pair) : ℤ := v.id * prioNo + v.flowid

/-- A cell that `send_frags` cuts from some packet of the flow. -/
def Cell.Genuine (c : Cell Pair) : Prop :=
  ∃ p : Packet, p.flowid = c.vc.flowid ∧ c ∈ cells c.vc.id c.vc c.pkt p

/-- Cells of the pairs in use, in any number and order. -/
structure Receivable (used : Set Pair) (arrived : List (Cell Pair)) : Prop where
  nodup : arrived.Nodup
  used : ∀ c ∈ arrived, c.vc ∈ used
  genuine : ∀ c ∈ arrived, c.Genuine

/-- The packets of a pair that have gone up. -/
def AtmLL.upOf (s : AtmLL (Cell Pair)) (v : Pair) : List (Cell Pair × ℕ) :=
  s.up.filter fun u => u.1.vc = v

/-- Two runs of the receiver that agree on the cells of the pair agree on its packets. -/
def Isolated (used : Set Pair) (v : Pair) : Prop :=
  ∀ arrived arrived' next next' t t', Receivable used arrived → Receivable used arrived' →
    arrived.filter (fun c => c.vc = v) = arrived'.filter (fun c => c.vc = v) →
    run (AtmLL.sendUp Cell.hdr) (AtmLL.init next) arrived = some t →
    run (AtmLL.sendUp Cell.hdr) (AtmLL.init next') arrived' = some t' → t.upOf v = t'.upOf v

namespace Reassembly

universe u

variable {α : Type u} {hdr : α → Header} {arrived : List α} {r : Reassembly α} {p : α} {a : ℤ}

theorem mem_buffer (mem : p ∈ (hears hdr arrived).buffer) : p ∈ arrived := by
  induction arrived using List.reverseRecOn with
  | nil => exact mem
  | append_singleton arrived q ih =>
      rw [hears_concat, hear] at mem
      rw [List.mem_append, List.mem_singleton]
      split_ifs at mem
      · obtain rfl | old := List.mem_cons.mp mem
        · exact .inr rfl
        · exact .inl (ih old)
      · exact .inl (ih (List.mem_of_mem_filter mem))
      · exact .inl (ih (List.mem_of_mem_filter mem))

/-- Taking the cells of one address out leaves those of another one. -/
theorem own_others (other : (hdr p).addr ≠ a) :
    (r.others hdr (hdr p).addr).filter (fun c => (hdr c).addr = a) = r.own hdr a := by
  rw [others, List.filter_filter, own]
  refine List.filter_congr fun c _ => ?_
  rw [← Bool.decide_and, decide_eq_decide]
  exact and_iff_left_of_imp fun same => same ▸ other.symm

/-- A cell of another address leaves the address alone. -/
theorem hear_other (other : (hdr p).addr ≠ a) : (r.hear hdr p).own hdr a = r.own hdr a ∧
    (r.hear hdr p).up.filter (fun u => (hdr u.1).addr = a) =
      r.up.filter fun u => (hdr u.1).addr = a := by
  rw [hear]
  split_ifs with opened complete
  · exact ⟨List.filter_cons_of_neg (by simpa using other), rfl⟩
  · refine ⟨own_others other, ?_⟩
    rw [List.filter_append, List.filter_cons_of_neg (by simpa using other), List.filter_nil,
      List.append_nil]
  · exact ⟨own_others other, rfl⟩

/-- A cell of the address meets the same cells, whether those of others wait as well or not. -/
theorem hear_own {r' : Reassembly α} (here : (hdr p).addr = a) (waiting : r.own hdr a = r'.buffer)
    (up : r.up.filter (fun u => (hdr u.1).addr = a) = r'.up)
    (lane : ∀ c ∈ r'.buffer, (hdr c).addr = a) :
    (r.hear hdr p).own hdr a = (r'.hear hdr p).buffer ∧
      (r.hear hdr p).up.filter (fun u => (hdr u.1).addr = a) = (r'.hear hdr p).up := by
  have own : r'.own hdr a = r'.buffer :=
    List.filter_eq_self.mpr fun c hc => decide_eq_true (lane c hc)
  have others : r'.others hdr a = [] :=
    List.filter_eq_nil_iff.mpr fun c hc => by simpa using lane c hc
  have none : (r.others hdr a).filter (fun c => (hdr c).addr = a) = [] := by
    rw [Reassembly.others, List.filter_filter]
    exact List.filter_eq_nil_iff.mpr fun c _ => by simp
  rw [hear, hear, here, own, waiting, others]
  split_ifs with opened complete
  · refine ⟨?_, up⟩
    rw [← waiting]
    exact List.filter_cons_of_pos (by simpa using here)
  · refine ⟨none, ?_⟩
    rw [List.filter_append, up, List.filter_cons_of_pos (by simpa using here), List.filter_nil]
  · exact ⟨none, up⟩

/-- What the receiver does for an address is what it does with the cells of the address. -/
theorem hears_lane (hdr : α → Header) (a : ℤ) (arrived : List α) :
    (hears hdr arrived).own hdr a = (hears hdr (arrived.filter fun c => (hdr c).addr = a)).buffer ∧
      (hears hdr arrived).up.filter (fun u => (hdr u.1).addr = a) =
        (hears hdr (arrived.filter fun c => (hdr c).addr = a)).up := by
  induction arrived using List.reverseRecOn with
  | nil => exact ⟨rfl, rfl⟩
  | append_singleton arrived p ih =>
      obtain ⟨waiting, up⟩ := ih
      rw [List.filter_append, hears_concat]
      by_cases here : (hdr p).addr = a
      · rw [List.filter_cons_of_pos (by simpa using here), List.filter_nil, hears_concat]
        apply hear_own here waiting up
        intro c hc
        simpa using (List.mem_filter.mp (mem_buffer hc)).2
      · obtain ⟨same, quiet⟩ := hear_other (r := hears hdr arrived) here
        rw [List.filter_cons_of_neg (by simpa using here), List.filter_nil, List.append_nil]
        exact ⟨same.trans waiting, quiet.trans up⟩

end Reassembly

section isolation

variable {used : Set Pair} {v w : Pair} {c : Cell Pair} {arrived : List (Cell Pair)}

theorem Cell.Genuine.addr (h : c.Genuine) : c.hdr.addr = c.vc.addr := by
  obtain ⟨p, flow, mem⟩ := h
  rw [(mem_cells.mp mem).2.2, Pair.addr, ← flow]
  rfl

/-- A pair that has its address to itself gets the packets of its own cells. -/
theorem upOf_eq (alone : ∀ w ∈ used, w.addr = v.addr → w = v) (h : Receivable used arrived)
    {next : Cell Pair → Option (Cell Pair)} {t : AtmLL (Cell Pair)}
    (reach : run (AtmLL.sendUp Cell.hdr) (AtmLL.init next) arrived = some t) :
    t.upOf v = (Reassembly.hears Cell.hdr (arrived.filter fun c => c.vc = v)).up := by
  have own : ∀ c ∈ arrived, c.hdr.addr = v.addr ↔ c.vc = v := by
    intro c hc
    rw [(h.genuine c hc).addr]
    exact ⟨alone c.vc (h.used c hc), fun same => by rw [same]⟩
  obtain ⟨t', reach', holds⟩ := AtmLL.run_holds Cell.hdr next h.nodup
  obtain rfl := Option.some.inj (reach'.symm.trans reach)
  have lane : arrived.filter (fun c => c.hdr.addr = v.addr) = arrived.filter fun c => c.vc = v :=
    List.filter_congr fun c hc => decide_eq_decide.mpr (own c hc)
  rw [← lane, ← (Reassembly.hears_lane Cell.hdr v.addr arrived).2, AtmLL.upOf, holds.up]
  refine List.filter_congr fun u hu => decide_eq_decide.mpr (own u.1 ?_).symm
  obtain ⟨pre, p, post, rfl, -, -, rfl⟩ := Reassembly.mem_up_iff.mp hu
  simp

/-- The only cell of a packet of 10 bytes, and the first one of a packet of 60 bytes. -/
def single (v : Pair) : Cell Pair := ⟨v, 0, 0, Packet.copy v.id ⟨10, v.flowid, 0, 50⟩ 0⟩

def opening (v : Pair) : Cell Pair := ⟨v, 0, 0, Packet.copy v.id ⟨60, v.flowid, 0, 50⟩ 0⟩

theorem pt_single (v : Pair) : (single v).hdr.pt = 1 := by
  simp [single, Packet.copy, Packet.frags, Packet.psize, trlLen]

theorem pt_opening (v : Pair) : (opening v).hdr.pt = 0 := by
  simp [opening, Packet.copy, Packet.frags, Packet.psize, trlLen]

theorem genuine_single (v : Pair) : (single v).Genuine :=
  ⟨⟨10, v.flowid, 0, 50⟩, rfl, mem_cells.mpr ⟨by simp [Packet.Admitted, Packet.frags, Packet.psize,
    trlLen], by simp [single, Packet.frags, Packet.psize, trlLen], rfl⟩⟩

theorem genuine_opening (v : Pair) : (opening v).Genuine :=
  ⟨⟨60, v.flowid, 0, 50⟩, rfl, mem_cells.mpr ⟨by simp [Packet.Admitted, Packet.frags, Packet.psize,
    trlLen], by simp [opening, Packet.frags, Packet.psize, trlLen], rfl⟩⟩

theorem receivable_single (hv : v ∈ used) : Receivable used [single v] where
  nodup := List.nodup_singleton _
  used c hc := by
    rw [List.mem_singleton.mp hc]
    exact hv
  genuine c hc := by
    rw [List.mem_singleton.mp hc]
    exact genuine_single v

theorem receivable_mixed (hv : v ∈ used) (hw : w ∈ used) (other : w ≠ v) :
    Receivable used [opening w, single v] where
  nodup := by
    rw [List.nodup_cons, List.mem_singleton]
    exact ⟨fun same => other (congrArg Cell.vc same), List.nodup_singleton _⟩
  used c hc := by
    obtain rfl | hc := List.mem_cons.mp hc
    · exact hw
    · rw [List.mem_singleton.mp hc]
      exact hv
  genuine c hc := by
    obtain rfl | hc := List.mem_cons.mp hc
    · exact genuine_opening w
    · rw [List.mem_singleton.mp hc]
      exact genuine_single v

theorem up_single (v : Pair) : (Reassembly.hears Cell.hdr [single v]).up = [(single v, 10)] := by
  have last : (single v).hdr.pt ≠ 0 := by rw [pt_single]; decide
  have whole : ((Reassembly.idle : Reassembly (Cell Pair)).own Cell.hdr
      (single v).hdr.addr).length + 1 = (single v).hdr.frags := by
    show 0 + 1 = (10 + trlLen + 47) / 48
    decide
  rw [← List.nil_append [single v], Reassembly.hears_concat, Reassembly.hears_nil,
    Reassembly.hear, if_neg last, if_pos whole]
  rfl

/-- The cell of a packet meets one cell too many, and is dropped with it. -/
theorem up_mixed (same : w.addr = v.addr) :
    (Reassembly.hears Cell.hdr [opening w, single v]).up = [] := by
  have last : (single v).hdr.pt ≠ 0 := by rw [pt_single]; decide
  have waits : Reassembly.hears Cell.hdr ([] ++ [opening w]) = ⟨[opening w], []⟩ := by
    rw [Reassembly.hears_concat, Reassembly.hear, if_pos (pt_opening w)]
    rfl
  have met : (⟨[opening w], []⟩ : Reassembly (Cell Pair)).own Cell.hdr (single v).hdr.addr =
      [opening w] :=
    List.filter_cons_of_pos (decide_eq_true same)
  have more : [opening w].length + 1 ≠ (single v).hdr.frags := by
    show 2 ≠ (10 + trlLen + 47) / 48
    decide
  rw [← List.nil_append [opening w, single v], ← List.singleton_append (l := [single v]),
    ← List.append_assoc, Reassembly.hears_concat, waits, Reassembly.hear, if_neg last, met,
    if_neg more]

/-- A cell that waits under the address of another pair takes its next packet with it. -/
theorem not_isolated (hv : v ∈ used) (hw : w ∈ used) (other : w ≠ v) (same : w.addr = v.addr) :
    ¬ Isolated used v := by
  intro isolated
  have alone := receivable_single hv
  have mixed := receivable_mixed hv hw other
  obtain ⟨t, reach, holds⟩ := AtmLL.run_holds Cell.hdr (fun _ => none) alone.nodup
  obtain ⟨t', reach', holds'⟩ := AtmLL.run_holds Cell.hdr (fun _ => none) mixed.nodup
  have agree : [single v].filter (fun c => c.vc = v) =
      [opening w, single v].filter fun c => c.vc = v := by
    simp [single, opening, other]
  have equal := isolated _ _ _ _ _ _ alone mixed agree reach reach'
  rw [AtmLL.upOf, AtmLL.upOf, holds.up, holds'.up, up_single, up_mixed same] at equal
  simp [single] at equal

/-- Every pair in use is isolated from the others exactly when no two of them have the
same address. -/
theorem isolated_iff (used : Set Pair) :
    (∀ v ∈ used, Isolated used v) ↔ Set.InjOn Pair.addr used := by
  constructor
  · intro isolated w hw v hv same
    by_contra other
    exact not_isolated hv hw other same (isolated v hv)
  · intro inj v hv arrived arrived' next next' t t' h h' agree reach reach'
    have alone : ∀ w ∈ used, w.addr = v.addr → w = v := fun w hw same => inj hw hv same
    rw [upOf_eq alone h reach, upOf_eq alone h' reach', agree]

/-- Flow ids below `ATM_PRIO_NO` are enough. -/
theorem injOn_addr (small : ∀ v ∈ used, 0 ≤ v.flowid ∧ v.flowid < prioNo) :
    Set.InjOn Pair.addr used := by
  intro w hw v hv same
  obtain ⟨low, high⟩ := small w hw
  obtain ⟨low', high'⟩ := small v hv
  rw [Pair.addr, Pair.addr] at same
  simp only [prioNo] at same high high'
  exact Pair.ext (by omega) (by omega)

end isolation

/-- The eighth flow of the first sender has the address of the first flow of the second. -/
theorem not_isolated_eight : ¬ Isolated {⟨0, 8⟩, ⟨1, 0⟩} ⟨1, 0⟩ :=
  not_isolated (w := ⟨0, 8⟩) (by simp) (by simp) (by decide) rfl

end Mftdma.Atm
