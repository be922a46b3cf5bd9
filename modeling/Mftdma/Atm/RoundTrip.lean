import Mftdma.Atm.Receiver

/-!
# Lossless reassembly over interleaved channels

Any number of virtual channels with different addresses send their packets to one
receiver, which gets all cells, those of each channel in order. `buffer_holds`
says which cells wait in the one list that the channels share, and
`round_trip_interleaved` that each packet comes out once, at its last cell.
-/

namespace Mftdma.Atm

open Execution

universe u

variable {ι : Type u} [DecidableEq ι]

/-- The cells arrive without loss, and those of each channel in their order. -/
def Interleaves (w : ι → VC) (arr : List (Cell ι)) : Prop :=
  ∀ v, arr.filter (fun c => c.vc = v) = (w v).stream v

/-- The last cell of the packet that `c` belongs to has not come. -/
def Cell.Unfinished (pre : List (Cell ι)) (c : Cell ι) : Prop :=
  ∀ b ∈ pre, b.vc = c.vc ∧ b.pkt = c.pkt → ¬ b.Last

instance (pre : List (Cell ι)) (c : Cell ι) : Decidable (c.Unfinished pre) :=
  inferInstanceAs (Decidable (∀ b ∈ pre, _))

/-- The numbers and sizes of the packets that have gone up on a channel. -/
def AtmLL.delivered (s : AtmLL (Cell ι)) (v : ι) : List (ℕ × ℕ) :=
  (s.up.filter fun u => u.1.vc = v).map fun u => (u.1.pkt, u.2)

variable {w : ι → VC} {arr pre post : List (Cell ι)} {b c p : Cell ι} {v : ι}

namespace Interleaves

theorem mem_stream (h : Interleaves w arr) (mem : c ∈ arr) : c ∈ (w c.vc).stream c.vc := by
  rw [← h c.vc]
  exact List.mem_filter.mpr ⟨mem, decide_eq_true rfl⟩

theorem nodup (h : Interleaves w arr) : arr.Nodup := by
  apply List.nodup_iff_count_le_one.mpr
  intro c
  have own : decide (c.vc = c.vc) = true := decide_eq_true rfl
  have once := List.nodup_iff_count_le_one.mp (VC.nodup_stream (w := w c.vc) (v := c.vc)) c
  rwa [← h c.vc, List.count_filter (p := fun d : Cell ι => decide (d.vc = c.vc)) own] at once

/-- The stream of a channel around one of its cells. -/
theorem stream_eq (h : Interleaves w (pre ++ p :: post)) : (w p.vc).stream p.vc =
    pre.filter (fun c => c.vc = p.vc) ++ p :: post.filter fun c => c.vc = p.vc := by
  rw [← h p.vc, List.filter_append, List.filter_cons_of_pos (by simp)]

theorem before (h : Interleaves w (pre ++ p :: post)) (mem : b ∈ pre) (same : b.vc = p.vc) :
    b.Before p := by
  have sorted := VC.pairwise_stream (w := w p.vc) (v := p.vc)
  rw [h.stream_eq] at sorted
  exact (List.pairwise_append.mp sorted).2.2 b (List.mem_filter.mpr ⟨mem, decide_eq_true same⟩) p
    List.mem_cons_self

/-- What the channel sent before `p` has come before `p`. -/
theorem mem_of_before (h : Interleaves w (pre ++ p :: post)) (mem : b ∈ (w p.vc).stream p.vc)
    (before : b.Before p) : b ∈ pre := by
  have sorted := VC.pairwise_stream (w := w p.vc) (v := p.vc)
  rw [h.stream_eq] at sorted mem
  obtain early | late := List.mem_append.mp mem
  · exact List.mem_of_mem_filter early
  · obtain rfl | behind := List.mem_cons.mp late
    · exact absurd before (Cell.Before.irrefl b)
    · have after := (List.pairwise_cons.mp (List.pairwise_append.mp sorted).2.1).1 b behind
      exact absurd (before.trans after) (Cell.Before.irrefl b)

/-- The packet of a cell that comes is not finished yet. -/
theorem unfinished (h : Interleaves w (pre ++ p :: post)) : p.Unfinished pre := by
  rintro b mem ⟨channel, packet⟩
  have hb := h.mem_stream (List.mem_append_left _ mem)
  rw [channel] at hb
  exact VC.not_last_of_before hb (h.mem_stream (by simp)) (h.before mem channel) packet

/-- Only one packet of a channel is unfinished at a time. -/
theorem pkt_eq (h : Interleaves w (pre ++ p :: post)) (mem : c ∈ pre) (same : c.vc = p.vc)
    (waits : c.Unfinished pre) : c.pkt = p.pkt := by
  have hc := h.mem_stream (List.mem_append_left _ mem)
  rw [same] at hc
  obtain ⟨last, inside, packet, marked⟩ := VC.exists_last hc
  by_contra other
  have lt : c.pkt < p.pkt := lt_of_le_of_ne (h.before mem same).pkt_le other
  have come := h.mem_of_before inside (.inl (packet ▸ lt))
  exact waits last come ⟨(VC.vc_of_mem inside).trans same.symm, packet⟩ marked

theorem addr_eq_iff (h : Interleaves w arr) (distinct : Function.Injective fun v => (w v).addr)
    (hb : b ∈ arr) (hc : c ∈ arr) : b.hdr.addr = c.hdr.addr ↔ b.vc = c.vc := by
  rw [VC.addr_of_mem (h.mem_stream hb), VC.addr_of_mem (h.mem_stream hc)]
  exact distinct.eq_iff

/-- The cells that a last cell finds under its address are those of its packet. -/
theorem waits_iff (h : Interleaves w (pre ++ p :: post))
    (distinct : Function.Injective fun v => (w v).addr) (mem : c ∈ pre) :
    c.hdr.addr = p.hdr.addr ∧ c.Unfinished pre ↔ c.vc = p.vc ∧ c.pkt = p.pkt := by
  rw [h.addr_eq_iff distinct (b := c) (c := p) (by simp [mem]) (by simp)]
  constructor
  · rintro ⟨channel, waits⟩
    exact ⟨channel, h.pkt_eq mem channel waits⟩
  · rintro ⟨channel, packet⟩
    exact ⟨channel, fun b hb same => h.unfinished b hb
      ⟨same.1.trans channel, same.2.trans packet⟩⟩

/-- The cells that wait for `p` when it comes as the last of its packet. -/
theorem length_waiting (h : Interleaves w (pre ++ p :: post)) (last : p.Last) :
    (pre.filter fun c => c.vc = p.vc ∧ c.pkt = p.pkt).length + 1 = p.hdr.frags := by
  have inside := h.mem_stream (c := p) (by simp)
  have sorted := VC.pairwise_stream (w := w p.vc) (v := p.vc)
  have total := VC.length_filter_pkt inside
  rw [h.stream_eq] at sorted
  have none : (post.filter fun c => c.vc = p.vc).filter (fun c => c.pkt = p.pkt) = [] := by
    refine List.filter_eq_nil_iff.mpr fun c hc same => ?_
    have after := (List.pairwise_cons.mp (List.pairwise_append.mp sorted).2.1).1 c hc
    obtain ⟨mem, channel⟩ := List.mem_filter.mp hc
    have hc := h.mem_stream (c := c) (by simp [mem])
    rw [of_decide_eq_true channel] at hc
    exact VC.not_last_of_before inside hc after (of_decide_eq_true same).symm last
  rw [h.stream_eq, List.filter_append, List.filter_cons_of_pos (by simp), none,
    List.length_append, List.filter_filter] at total
  rw [Header.frags, ← total, List.length_singleton]
  simp only [Bool.decide_and, Bool.and_comm]

end Interleaves

omit [DecidableEq ι] in
theorem Cell.unfinished_concat : c.Unfinished (pre ++ [p]) ↔
    c.Unfinished pre ∧ (p.vc = c.vc ∧ p.pkt = c.pkt → ¬ p.Last) := by
  simp [Cell.Unfinished, or_imp, forall_and]

/-- The list that the channels share holds the cells with PT = 0 of the packets whose cell
with PT = 1 has not come. -/
theorem buffer_holds (distinct : Function.Injective fun v => (w v).addr)
    (h : Interleaves w (pre ++ post)) :
    (Reassembly.hears Cell.hdr pre).buffer =
      (pre.filter fun c => ¬ c.Last ∧ c.Unfinished pre).reverse := by
  induction pre using List.reverseRecOn generalizing post with
  | nil => rfl
  | append_singleton pre p ih =>
      rw [List.append_assoc, List.singleton_append] at h
      have opened := VC.pt_eq_zero_iff (h.mem_stream (c := p) (by simp))
      rw [Reassembly.hears_concat, Reassembly.hear, List.filter_append, List.reverse_append]
      by_cases last : p.Last
      · have none : [p].filter (fun c => ¬ c.Last ∧ c.Unfinished (pre ++ [p])) = [] := by
          simp [last]
        rw [if_neg fun zero => opened.mp zero last, none, Reassembly.others, ih h,
          List.filter_reverse, List.filter_filter]
        refine congrArg List.reverse (List.filter_congr fun c hc => ?_)
        have own := h.waits_iff distinct hc
        rw [← Bool.decide_and, decide_eq_decide, Cell.unfinished_concat]
        constructor
        · rintro ⟨foreign, plain, waits⟩
          refine ⟨plain, waits, fun same => ?_⟩
          exact absurd (own.mpr ⟨same.1.symm, same.2.symm⟩).1 foreign
        · rintro ⟨plain, waits, foreign⟩
          refine ⟨fun same => ?_, plain, waits⟩
          obtain ⟨channel, packet⟩ := own.mp ⟨same, waits⟩
          exact foreign ⟨channel.symm, packet.symm⟩ last
      · have kept : [p].filter (fun c => ¬ c.Last ∧ c.Unfinished (pre ++ [p])) = [p] := by
          simp [last, Cell.unfinished_concat, h.unfinished]
        rw [if_pos (opened.mpr last), ih h, kept]
        refine congrArg (p :: ·.reverse) (List.filter_congr fun c _ => decide_eq_decide.mpr ?_)
        rw [Cell.unfinished_concat]
        exact and_congr_right fun _ => (and_iff_left fun _ => last).symm

/-- When the last cell of a packet comes, all the others wait for it. -/
theorem own_of_last (distinct : Function.Injective fun v => (w v).addr)
    (h : Interleaves w (pre ++ p :: post)) (last : p.Last) :
    ((Reassembly.hears Cell.hdr pre).own Cell.hdr p.hdr.addr).length + 1 = p.hdr.frags := by
  rw [Reassembly.own, buffer_holds distinct h, List.filter_reverse, List.length_reverse,
    List.filter_filter, ← h.length_waiting last]
  congr 2
  apply List.filter_congr
  intro c hc
  have own := h.waits_iff distinct hc
  rw [← Bool.decide_and, decide_eq_decide, ← own]
  constructor
  · rintro ⟨same, -, waits⟩
    exact ⟨same, waits⟩
  · rintro ⟨same, waits⟩
    exact ⟨same, waits c hc ⟨rfl, rfl⟩, waits⟩

theorem up_holds (distinct : Function.Injective fun v => (w v).addr)
    (h : Interleaves w (pre ++ post)) : (Reassembly.hears Cell.hdr pre).up =
    (pre.filter fun c => c.Last).map fun c => (c, c.hdr.length) := by
  induction pre using List.reverseRecOn generalizing post with
  | nil => rfl
  | append_singleton pre p ih =>
      rw [List.append_assoc, List.singleton_append] at h
      have opened := VC.pt_eq_zero_iff (h.mem_stream (c := p) (by simp))
      rw [Reassembly.hears_concat, Reassembly.hear, List.filter_append, List.map_append]
      by_cases last : p.Last
      · rw [if_neg fun zero => opened.mp zero last, if_pos (own_of_last distinct h last), ih h]
        simp [last]
      · rw [if_pos (opened.mpr last), ih h]
        simp [last]

/-- At every moment of every lossless interleaving, `buffer_` holds the cells with PT = 0 of the
packets whose cell with PT = 1 has not come, the cells with PT = 1 that have come have
gone up, and what has gone up on each channel is a first part of what it sent, with
the sizes that were sent; in the end it is all of it. -/
theorem round_trip_interleaved (distinct : Function.Injective fun v => (w v).addr)
    (order : Interleaves w arr) (next : Cell ι → Option (Cell ι)) (pre post : List (Cell ι))
    (moment : arr = pre ++ post) :
    ∃ t, run (AtmLL.sendUp Cell.hdr) (AtmLL.init next) pre = some t ∧
      Links t.next t.buffer (pre.filter fun c => ¬ c.Last ∧ c.Unfinished pre).reverse ∧
      t.up.map Prod.fst = pre.filter (fun c => c.Last) ∧
      ∀ v, t.delivered v <+: (w v).sent ∧ (post = [] → t.delivered v = (w v).sent) := by
  rw [moment] at order
  obtain ⟨t, reach, holds⟩ := AtmLL.run_holds Cell.hdr next
    (List.nodup_append.mp order.nodup).1
  have links := holds.links
  have up := holds.up
  rw [buffer_holds distinct order] at links
  rw [up_holds distinct order] at up
  have delivered : ∀ v, t.delivered v =
      ((pre.filter fun c => c.vc = v).filter fun c => c.Last).map
        fun c => (c.pkt, c.hdr.length) := by
    intro v
    rw [AtmLL.delivered, up, List.filter_map, List.map_map, List.filter_filter,
      List.filter_filter]
    simp only [Function.comp_def, Bool.and_comm]
  have lane : ∀ v, pre.filter (fun c => c.vc = v) ++ post.filter (fun c => c.vc = v) =
      (w v).stream v := fun v => by rw [← order v, List.filter_append]
  refine ⟨t, reach, links, ?_, fun v => ⟨?_, fun done => ?_⟩⟩
  · rw [up, List.map_map]
    exact List.map_id _
  · rw [delivered, ← VC.filter_last (w := w v) (v := v), ← lane]
    exact ((List.prefix_append _ _).filter _).map _
  · rw [delivered, ← VC.filter_last (w := w v) (v := v), ← lane, done, List.filter_nil,
      List.append_nil]

/-- Two flows of one sender, with a packet of three cells and one of a single cell. -/
def twoFlows (b : Bool) : VC := bif b then .idle 1 1 50 [100] else .idle 1 0 50 [10]

/-- The single cell comes between the first two of the longer packet. -/
def interleaved : List (Cell Bool) :=
  ((twoFlows true).stream true).take 1 ++ (twoFlows false).stream false ++
    ((twoFlows true).stream true).drop 1

theorem round_trip_interleaved_twoFlows :
    ∃ t, run (AtmLL.sendUp Cell.hdr) (AtmLL.init fun _ => none) interleaved = some t ∧
      t.delivered true = [(0, 100)] ∧ t.delivered false = [(0, 10)] := by
  have distinct : Function.Injective fun v => (twoFlows v).addr := by
    intro a b same
    cases a <;> cases b <;> first | rfl | exact absurd same (by decide)
  have order : Interleaves twoFlows interleaved := by
    intro v
    cases v <;> decide
  obtain ⟨t, reach, -, -, delivered⟩ :=
    round_trip_interleaved distinct order (fun _ => none) interleaved [] (List.append_nil _).symm
  exact ⟨t, reach, (delivered true).2 rfl, (delivered false).2 rfl⟩

end Mftdma.Atm
