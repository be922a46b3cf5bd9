import Mathlib.Data.Int.Notation
import Mathlib.Data.List.Basic
import Mathlib.Data.List.Nodup

/-!
# Cutting packets into ATM cells

`AtmLL::send_frags` copies a packet into cells of 48 payload bytes, room for the
AAL5 trailer included, and marks the last one with PT = 1. The cells of one
packet are otherwise alike, so a cell object is named here by its virtual
channel, the number of its packet and its place in the packet; the receiver
sees the header only.

`VC.stream` is what one virtual channel emits, and `Cell.Before` orders it.
-/

namespace Mftdma.Atm

/-- The fields of `hdr_ll_atm`, and `size()` of the common header. -/
structure Header where
  size : ℕ
  pt : ℕ
  addr : ℤ
  length : ℕ
deriving DecidableEq

/-- A packet from the network layer, with what `qMon_` says when it comes. -/
structure Packet where
  size : ℕ
  flowid : ℤ
  queued : ℕ
  limit : ℕ
deriving DecidableEq

/-- `ATM_TRL_LEN` -/
def trlLen : ℕ := 8

/-- `ATM_PRIO_NO` -/
def prioNo : ℤ := 8

namespace Packet

def psize (p : Packet) : ℕ := p.size + trlLen

def frags (p : Packet) : ℕ := (p.psize + 47) / 48

/-- The queue monitor lets the packet pass. -/
def Admitted (p : Packet) : Prop := ¬ p.queued + p.frags ≥ p.limit

instance (p : Packet) : Decidable p.Admitted := inferInstanceAs (Decidable (¬ _))

/-- The header that `send_frags` writes into the `i`-th copy of a packet. -/
def copy (id : ℤ) (p : Packet) (i : ℕ) : Header where
  size := 53
  pt := if i = p.frags - 1 then 1 else 0
  addr := id * prioNo + p.flowid
  length := p.size

end Packet

/-- `AtmLL::send_frags`, for the `AtmLL` of the number `id_`. -/
def sendFrags (id : ℤ) (p : Packet) : List Header :=
  if p.queued + p.frags ≥ p.limit then [] else (List.range p.frags).map (p.copy id)

universe u

variable {ι : Type u}

/-- A cell object: the `no`-th copy of the packet number `pkt` on the channel `vc`. -/
structure Cell (ι : Type u) where
  vc : ι
  pkt : ℕ
  no : ℕ
  hdr : Header
deriving DecidableEq

/-- A virtual channel: the packets that one `AtmLL` gets for one flow. -/
structure VC where
  id : ℤ
  flowid : ℤ
  packets : List Packet
  onFlow : ∀ p ∈ packets, p.flowid = flowid

theorem onFlow_map (flowid : ℤ) (limit : ℕ) (sizes : List ℕ) :
    ∀ p ∈ sizes.map fun size => Packet.mk size flowid 0 limit, p.flowid = flowid := by
  intro p hp
  obtain ⟨size, -, rfl⟩ := List.mem_map.mp hp
  rfl

/-- Packets of these sizes that all find the queue empty. -/
def VC.idle (id flowid : ℤ) (limit : ℕ) (sizes : List ℕ) : VC :=
  ⟨id, flowid, sizes.map fun size => ⟨size, flowid, 0, limit⟩, onFlow_map flowid limit sizes⟩

/-- The cell objects that `send_frags` makes of the packet number `pkt`. -/
def cells (id : ℤ) (v : ι) (pkt : ℕ) (p : Packet) : List (Cell ι) :=
  (sendFrags id p).mapIdx fun no hdr => ⟨v, pkt, no, hdr⟩

/-- The cells of packets that are numbered from `pkt` on. -/
def streamFrom (id : ℤ) (v : ι) : ℕ → List Packet → List (Cell ι)
  | _, [] => []
  | pkt, p :: ps => cells id v pkt p ++ streamFrom id v (pkt + 1) ps

/-- The numbers and sizes of the packets that are cut and not dropped. -/
def sentFrom : ℕ → List Packet → List (ℕ × ℕ)
  | _, [] => []
  | pkt, p :: ps => if p.Admitted then (pkt, p.size) :: sentFrom (pkt + 1) ps
      else sentFrom (pkt + 1) ps

namespace VC

def addr (w : VC) : ℤ := w.id * prioNo + w.flowid

/-- All the cells of the channel, in the order in which they are sent. -/
def stream (w : VC) (v : ι) : List (Cell ι) := streamFrom w.id v 0 w.packets

def sent (w : VC) : List (ℕ × ℕ) := sentFrom 0 w.packets

end VC

/-- The order in which the cells of a channel are sent. -/
def Cell.Before (c d : Cell ι) : Prop := c.pkt < d.pkt ∨ c.pkt = d.pkt ∧ c.no < d.no

/-- The last cell of its packet. -/
def Cell.Last (c : Cell ι) : Prop := c.hdr.pt = 1

instance (c : Cell ι) : Decidable c.Last := inferInstanceAs (Decidable (_ = _))

variable {id : ℤ} {v : ι} {k pkt : ℕ} {p : Packet} {ps : List Packet} {c d : Cell ι}

theorem Packet.frags_pos (p : Packet) : 0 < p.frags := by
  unfold Packet.frags Packet.psize trlLen
  omega

theorem cells_of_admitted (id : ℤ) (v : ι) (pkt : ℕ) (h : p.Admitted) :
    cells id v pkt p = (List.range p.frags).map fun no => ⟨v, pkt, no, p.copy id no⟩ := by
  rw [cells, sendFrags, if_neg h]
  apply List.ext_getElem
  · simp
  · simp

theorem cells_of_not_admitted (h : ¬ p.Admitted) : cells id v pkt p = [] := by
  rw [cells, sendFrags, if_pos (not_not.mp h)]
  rfl

/-- What is known of a cell of a packet. -/
theorem mem_cells : c ∈ cells id v pkt p ↔
    p.Admitted ∧ c.no < p.frags ∧ c = ⟨v, pkt, c.no, p.copy id c.no⟩ := by
  by_cases h : p.Admitted
  · rw [cells_of_admitted _ _ _ h, List.mem_map]
    constructor
    · rintro ⟨no, inside, rfl⟩
      exact ⟨h, List.mem_range.mp inside, rfl⟩
    · rintro ⟨-, inside, same⟩
      exact ⟨c.no, List.mem_range.mpr inside, same.symm⟩
  · simp [cells_of_not_admitted h, h]

theorem pkt_of_mem_cells (mem : c ∈ cells id v pkt p) : c.pkt = pkt := by
  rw [(mem_cells.mp mem).2.2]

theorem last_iff_of_mem_cells (mem : c ∈ cells id v pkt p) :
    c.Last ↔ c.no + 1 = p.frags := by
  obtain ⟨-, inside, same⟩ := mem_cells.mp mem
  have pt : c.hdr.pt = if c.no = p.frags - 1 then 1 else 0 := by
    rw [same]
    rfl
  rw [Cell.Last, pt]
  split_ifs with atEnd
  · exact iff_of_true rfl (by omega)
  · exact iff_of_false not_false (by omega)

/-- A packet that passes is cut into cells with PT = 0 and one with PT = 1 at the end. -/
theorem cells_eq_append (id : ℤ) (v : ι) (pkt : ℕ) (h : p.Admitted) : ∃ front last,
    cells id v pkt p = front ++ [last] ∧ front.length + 1 = p.frags ∧
      (∀ c ∈ front, ¬ c.Last) ∧ last.Last := by
  obtain ⟨n, hn⟩ : ∃ n, p.frags = n + 1 := ⟨p.frags - 1, by have := p.frags_pos; omega⟩
  have split := cells_of_admitted id v pkt h
  rw [hn, List.range_succ, List.map_append, List.map_singleton] at split
  refine ⟨_, _, split, by simp [hn], fun c hc last => ?_, ?_⟩
  · have mem : c ∈ cells id v pkt p := split ▸ List.mem_append_left _ hc
    obtain ⟨no, inside, rfl⟩ := List.mem_map.mp hc
    have := (last_iff_of_mem_cells mem).mp last
    have := List.mem_range.mp inside
    simp only at *
    omega
  · have mem : (⟨v, pkt, n, p.copy id n⟩ : Cell ι) ∈ cells id v pkt p :=
      split ▸ List.mem_append_right _ (List.mem_singleton.mpr rfl)
    exact (last_iff_of_mem_cells mem).mpr hn.symm

theorem length_cells (h : p.Admitted) : (cells id v pkt p).length = p.frags := by
  rw [cells_of_admitted _ _ _ h, List.length_map, List.length_range]

theorem le_pkt_of_mem_streamFrom (mem : c ∈ streamFrom id v k ps) : k ≤ c.pkt := by
  induction ps generalizing k with
  | nil => cases mem
  | cons p ps ih =>
      obtain here | later := List.mem_append.mp mem
      · exact Nat.le_of_eq (pkt_of_mem_cells here).symm
      · exact Nat.le_of_succ_le (ih later)

/-- Each cell of a stream belongs to one packet, and the stream holds all cells of it. -/
theorem packet_of_mem_streamFrom (mem : c ∈ streamFrom id v k ps) : ∃ p ∈ ps,
    c ∈ cells id v c.pkt p ∧
      (streamFrom id v k ps).filter (fun d => d.pkt = c.pkt) = cells id v c.pkt p := by
  induction ps generalizing k with
  | nil => cases mem
  | cons p ps ih =>
      rw [streamFrom, List.filter_append]
      obtain here | later := List.mem_append.mp mem
      · obtain rfl := pkt_of_mem_cells here
        refine ⟨p, List.mem_cons_self, here, ?_⟩
        have whole : (cells id v c.pkt p).filter (fun d => d.pkt = c.pkt) = cells id v c.pkt p :=
          List.filter_eq_self.mpr fun d hd => decide_eq_true (pkt_of_mem_cells hd)
        have none : (streamFrom id v (c.pkt + 1) ps).filter (fun d => d.pkt = c.pkt) = [] :=
          List.filter_eq_nil_iff.mpr fun d hd same =>
            absurd (le_pkt_of_mem_streamFrom hd) (by have := of_decide_eq_true same; omega)
        rw [whole, none, List.append_nil]
      · obtain ⟨p', hp, own, rest⟩ := ih later
        have above := le_pkt_of_mem_streamFrom later
        have none : (cells id v k p).filter (fun d => d.pkt = c.pkt) = [] :=
          List.filter_eq_nil_iff.mpr fun d hd same => by
            have := pkt_of_mem_cells hd
            have := of_decide_eq_true same
            omega
        exact ⟨p', List.mem_cons_of_mem p hp, own, by rw [none, rest, List.nil_append]⟩

theorem pairwise_streamFrom : (streamFrom id v k ps).Pairwise Cell.Before := by
  induction ps generalizing k with
  | nil => exact .nil
  | cons p ps ih =>
      refine List.pairwise_append.mpr ⟨?_, ih, fun c hc d hd => .inl ?_⟩
      · by_cases h : p.Admitted
        · rw [cells_of_admitted _ _ _ h]
          refine List.pairwise_map.mpr (List.pairwise_lt_range.imp fun lt => .inr ⟨rfl, lt⟩)
        · rw [cells_of_not_admitted h]
          exact .nil
      · have := pkt_of_mem_cells hc
        have := le_pkt_of_mem_streamFrom hd
        omega

/-- The last cells of a stream tell its packets and their sizes. -/
theorem filter_last_streamFrom : ((streamFrom id v k ps).filter fun c => c.Last).map
    (fun c => (c.pkt, c.hdr.length)) = sentFrom k ps := by
  induction ps generalizing k with
  | nil => rfl
  | cons p ps ih =>
      rw [streamFrom, List.filter_append, List.map_append, ih, sentFrom]
      by_cases h : p.Admitted
      · obtain ⟨front, last, split, -, plain, marked⟩ := cells_eq_append id v k h
        have mem : last ∈ cells id v k p := by simp [split]
        have values : (last.pkt, last.hdr.length) = (k, p.size) := by
          rw [(mem_cells.mp mem).2.2]
          rfl
        have none : front.filter (fun c => c.Last) = [] :=
          List.filter_eq_nil_iff.mpr fun c hc last => plain c hc (of_decide_eq_true last)
        have one : [last].filter (fun c => c.Last) = [last] := by simp [marked]
        rw [if_pos h, split, List.filter_append, none, one, List.nil_append, List.map_singleton,
          values, List.singleton_append]
      · rw [if_neg h, cells_of_not_admitted h]
        rfl

theorem pt_eq_zero_iff_of_mem_cells (mem : c ∈ cells id v pkt p) : c.hdr.pt = 0 ↔ ¬ c.Last := by
  have pt : c.hdr.pt = if c.no = p.frags - 1 then 1 else 0 := by
    rw [(mem_cells.mp mem).2.2]
    rfl
  rw [Cell.Last, pt]
  split_ifs <;> decide

namespace Cell

theorem Before.trans {e : Cell ι} (first : c.Before d) (second : d.Before e) : c.Before e := by
  obtain lt | ⟨same, lt⟩ := first <;> obtain lt' | ⟨same', lt'⟩ := second
  · exact .inl (Nat.lt_trans lt lt')
  · exact .inl (same' ▸ lt)
  · exact .inl (same ▸ lt')
  · exact .inr ⟨same.trans same', Nat.lt_trans lt lt'⟩

theorem Before.irrefl (c : Cell ι) : ¬ c.Before c := by
  rintro (lt | ⟨-, lt⟩) <;> exact absurd lt (Nat.lt_irrefl _)

theorem Before.pkt_le (h : c.Before d) : c.pkt ≤ d.pkt :=
  h.elim Nat.le_of_lt fun same => Nat.le_of_eq same.1

end Cell

namespace VC

variable {w : VC}

theorem pairwise_stream : (w.stream v).Pairwise Cell.Before := pairwise_streamFrom

theorem nodup_stream : (w.stream v).Nodup :=
  pairwise_stream.imp fun before => by
    rintro rfl
    exact Cell.Before.irrefl _ before

/-- Each cell of the stream belongs to one packet, and the stream holds all cells of it. -/
theorem packet_of_mem (mem : c ∈ w.stream v) : ∃ p ∈ w.packets, c ∈ cells w.id v c.pkt p ∧
    (w.stream v).filter (fun d => d.pkt = c.pkt) = cells w.id v c.pkt p :=
  packet_of_mem_streamFrom mem

theorem vc_of_mem (mem : c ∈ w.stream v) : c.vc = v := by
  obtain ⟨p, -, own, -⟩ := packet_of_mem mem
  rw [(mem_cells.mp own).2.2]

theorem addr_of_mem (mem : c ∈ w.stream v) : c.hdr.addr = w.addr := by
  obtain ⟨p, hp, own, -⟩ := packet_of_mem mem
  rw [(mem_cells.mp own).2.2, addr, ← w.onFlow p hp]
  rfl

theorem pt_eq_zero_iff (mem : c ∈ w.stream v) : c.hdr.pt = 0 ↔ ¬ c.Last := by
  obtain ⟨p, -, own, -⟩ := packet_of_mem mem
  exact pt_eq_zero_iff_of_mem_cells own

/-- A packet is cut into as many cells as its last cell makes the receiver expect. -/
theorem length_filter_pkt (mem : c ∈ w.stream v) :
    ((w.stream v).filter fun d => d.pkt = c.pkt).length = (c.hdr.length + trlLen + 47) / 48 := by
  obtain ⟨p, -, own, all⟩ := packet_of_mem mem
  obtain ⟨admitted, -, shape⟩ := mem_cells.mp own
  rw [all, length_cells admitted, shape]
  rfl

/-- No cell of a packet comes behind its last one. -/
theorem not_last_of_before (hc : c ∈ w.stream v) (hd : d ∈ w.stream v) (before : c.Before d)
    (same : c.pkt = d.pkt) : ¬ c.Last := by
  obtain ⟨p, -, own, all⟩ := packet_of_mem hc
  have own' : d ∈ cells w.id v c.pkt p := by
    rw [← all]
    exact List.mem_filter.mpr ⟨hd, decide_eq_true same.symm⟩
  intro last
  have atEnd := (last_iff_of_mem_cells own).mp last
  obtain ⟨-, inside, -⟩ := mem_cells.mp own'
  obtain lt | ⟨-, lt⟩ := before <;> omega

/-- Each packet of the stream has a last cell. -/
theorem exists_last (mem : c ∈ w.stream v) : ∃ d ∈ w.stream v, d.pkt = c.pkt ∧ d.Last := by
  obtain ⟨p, -, own, all⟩ := packet_of_mem mem
  obtain ⟨front, last, split, -, -, marked⟩ :=
    cells_eq_append w.id v c.pkt (mem_cells.mp own).1
  have inside : last ∈ cells w.id v c.pkt p := split ▸ List.mem_append_right _ (by simp)
  exact ⟨last, List.mem_of_mem_filter (all ▸ inside), pkt_of_mem_cells inside, marked⟩

theorem filter_last : ((w.stream v).filter fun c => c.Last).map
    (fun c => (c.pkt, c.hdr.length)) = w.sent :=
  filter_last_streamFrom

end VC

end Mftdma.Atm
