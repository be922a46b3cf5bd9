import Mathlib.Data.List.DropRight
import Mftdma.Atm.Receiver

/-!
# Reassembly when cells are lost

The receiver knows a packet by the number of cells that wait when its last cell
comes. Cells of an earlier packet whose last cell was lost wait as well, and
make up for lost cells of the packet itself: `onlyComplete_iff` says that this
is the one way for an incomplete packet to go up, and exactly when it happens.
-/

namespace Mftdma.Atm

open Execution

universe u

variable {ι : Type u}

/-- The cells that came since the latest cell with PT = 1. -/
def arrivedSince (pre : List (Cell ι)) : List (Cell ι) := pre.rtakeWhile fun c => ¬ c.Last

/-- Those of them that belong to earlier packets than `p`, whose cell with PT = 1 was lost. -/
def leftovers (pre : List (Cell ι)) (p : Cell ι) : List (Cell ι) :=
  (arrivedSince pre).filter fun c => ¬ c.pkt = p.pkt

variable {w : VC} {v : ι} {arr pre post : List (Cell ι)} {b c p : Cell ι}

theorem subset_arrivedSince (mem : c ∈ arrivedSince pre) : c ∈ pre ∧ ¬ c.Last := by
  refine ⟨(List.rtakeWhile_suffix _ _).subset mem, ?_⟩
  simpa using List.mem_rtakeWhile_imp mem

theorem arrivedSince_concat (plain : ¬ p.Last) :
    arrivedSince (pre ++ [p]) = arrivedSince pre ++ [p] := by
  rw [arrivedSince, List.rtakeWhile_concat, if_pos (decide_eq_true plain)]
  rfl

theorem arrivedSince_concat_last (last : p.Last) : arrivedSince (pre ++ [p]) = [] := by
  rw [arrivedSince, List.rtakeWhile_concat, if_neg (by simpa using last)]

/-- A cell with no last cell behind it has come since the latest last cell. -/
theorem mem_arrivedSince (sorted : pre.Pairwise Cell.Before) (mem : c ∈ pre)
    (none : ∀ b ∈ pre, c = b ∨ c.Before b → ¬ b.Last) : c ∈ arrivedSince pre := by
  induction pre using List.reverseRecOn with
  | nil => cases mem
  | append_singleton pre b ih =>
      obtain ⟨sorted, -, across⟩ := List.pairwise_append.mp sorted
      have behind : c = b ∨ c.Before b := by
        obtain early | same := List.mem_append.mp mem
        · exact .inr (across c early b (by simp))
        · exact .inl (List.mem_singleton.mp same)
      have plain := none b (by simp) behind
      rw [arrivedSince_concat plain]
      obtain early | same := List.mem_append.mp mem
      · exact List.mem_append_left _ (ih sorted early fun b hb => none b (by simp [hb]))
      · exact List.mem_append_right _ same

/-- Behind a channel of its own, the buffer holds what came since the latest last cell. -/
theorem buffer_eq (inside : ∀ c ∈ pre, c ∈ w.stream v) :
    (Reassembly.hears Cell.hdr pre).buffer = (arrivedSince pre).reverse := by
  induction pre using List.reverseRecOn with
  | nil => rfl
  | append_singleton pre p ih =>
      have known : ∀ c ∈ pre, c ∈ w.stream v := fun c hc => inside c (List.mem_append_left _ hc)
      have hp := inside p (by simp)
      have opened := VC.pt_eq_zero_iff hp
      rw [Reassembly.hears_concat, Reassembly.hear]
      by_cases last : p.Last
      · rw [if_neg fun zero => opened.mp zero last,
          arrivedSince_concat_last last, Reassembly.others, ih known]
        refine List.filter_eq_nil_iff.mpr fun c hc => ?_
        have hc := known c (subset_arrivedSince (List.mem_reverse.mp hc)).1
        simp [VC.addr_of_mem hc, VC.addr_of_mem hp]
      · rw [if_pos (opened.mpr last), ih known, arrivedSince_concat last, List.reverse_append,
          List.reverse_singleton, List.singleton_append]

theorem own_eq (inside : ∀ c ∈ pre, c ∈ w.stream v) (hp : p ∈ w.stream v) :
    (Reassembly.hears Cell.hdr pre).own Cell.hdr p.hdr.addr = (arrivedSince pre).reverse := by
  rw [Reassembly.own, buffer_eq inside]
  refine List.filter_eq_self.mpr fun c hc => decide_eq_true ?_
  have hc := inside c (subset_arrivedSince (List.mem_reverse.mp hc)).1
  rw [VC.addr_of_mem hc, VC.addr_of_mem hp]

/-- What has arrived since a packet ended is of the packet of `p`, or left over. -/
theorem length_arrivedSince (pre : List (Cell ι)) (p : Cell ι) : (arrivedSince pre).length =
    ((arrivedSince pre).filter fun c => c.pkt = p.pkt).length + (leftovers pre p).length := by
  have halves := List.length_eq_length_filter_add (l := arrivedSince pre)
    (f := fun c => decide (c.pkt = p.pkt))
  have older : (arrivedSince pre).filter (fun c => !decide (c.pkt = p.pkt)) = leftovers pre p := by
    simp only [leftovers, decide_not]
  rw [older] at halves
  exact halves

variable [DecidableEq ι]

/-- The cells of the packet of `p` that did not arrive. -/
def VC.lost (w : VC) (v : ι) (arr : List (Cell ι)) (p : Cell ι) : List (Cell ι) :=
  (w.stream v).filter fun c => c.pkt = p.pkt ∧ c ∉ arr

/-- No lost cells of a packet whose last cell came are matched in number by the leftovers that
it finds. -/
def NoStandIn (w : VC) (v : ι) (arr : List (Cell ι)) : Prop :=
  ∀ pre p post, arr = pre ++ p :: post → p.Last →
    (leftovers pre p).length = (w.lost v arr p).length → w.lost v arr p = []

/-- A packet went up only if every cell of it arrived. -/
def OnlyComplete (w : VC) (v : ι) (arr : List (Cell ι)) (t : AtmLL (Cell ι)) : Prop :=
  ∀ u ∈ t.up, ∀ c ∈ w.stream v, c.pkt = u.1.pkt → c ∈ arr

/-- The cells of the packet that arrived before its last one are still waiting. -/
theorem mem_waiting_iff (lossy : (pre ++ p :: post).Sublist (w.stream v)) (last : p.Last) :
    c ∈ p :: (arrivedSince pre).filter (fun c => c.pkt = p.pkt) ↔
      c ∈ (w.stream v).filter fun c => c.pkt = p.pkt ∧ c ∈ pre ++ p :: post := by
  have sorted := VC.pairwise_stream.sublist lossy
  obtain ⟨sortedPre, sortedPost, across⟩ := List.pairwise_append.mp sorted
  have hp : p ∈ w.stream v := lossy.subset (by simp)
  simp only [List.mem_cons, List.mem_filter, decide_eq_true_eq]
  constructor
  · rintro (rfl | ⟨waits, same⟩)
    · exact ⟨hp, rfl, by simp⟩
    · have mem : c ∈ pre ++ p :: post := List.mem_append_left _ (subset_arrivedSince waits).1
      exact ⟨lossy.subset mem, same, mem⟩
  · rintro ⟨hc, same, mem⟩
    obtain early | late := List.mem_append.mp mem
    · refine .inr ⟨mem_arrivedSince sortedPre early fun b hb behind marked => ?_, same⟩
      -- a last cell between `c` and `p` would be one of their own packet
      have hb' : b ∈ w.stream v := lossy.subset (List.mem_append_left _ hb)
      have before := across b hb p List.mem_cons_self
      have le : c.pkt ≤ b.pkt := behind.elim (fun h => h ▸ le_refl _) Cell.Before.pkt_le
      exact VC.not_last_of_before hb' hp before
        (le_antisymm before.pkt_le (same ▸ le)) marked
    · obtain rfl | behind := List.mem_cons.mp late
      · exact .inl rfl
      · have after := (List.pairwise_cons.mp sortedPost).1 c behind
        exact absurd last (VC.not_last_of_before hp hc after same.symm)

/-- Each cell of a packet arrived or was lost. -/
theorem length_arrived_add_lost (arr : List (Cell ι)) (hp : p ∈ w.stream v) :
    ((w.stream v).filter fun c => c.pkt = p.pkt ∧ c ∈ arr).length + (w.lost v arr p).length =
      p.hdr.frags := by
  have parts := List.length_eq_length_filter_add (l := (w.stream v).filter fun c => c.pkt = p.pkt)
    (f := fun c => decide (c ∈ arr))
  have present : ((w.stream v).filter fun c => c.pkt = p.pkt).filter (fun c => c ∈ arr) =
      (w.stream v).filter fun c => c.pkt = p.pkt ∧ c ∈ arr := by
    rw [List.filter_filter]
    simp only [Bool.decide_and, Bool.and_comm]
  have absent : ((w.stream v).filter fun c => c.pkt = p.pkt).filter (fun c => !decide (c ∈ arr)) =
      w.lost v arr p := by
    rw [List.filter_filter, VC.lost]
    simp only [Bool.decide_and, decide_not, Bool.and_comm]
  rw [present, absent, VC.length_filter_pkt hp] at parts
  exact parts.symm

/-- Leftovers stand in for lost cells one to one. -/
theorem goes_up_iff (lossy : (pre ++ p :: post).Sublist (w.stream v)) (last : p.Last) :
    (arrivedSince pre).length + 1 = p.hdr.frags ↔
      (leftovers pre p).length = (w.lost v (pre ++ p :: post) p).length := by
  have nodup : (pre ++ p :: post).Nodup := VC.nodup_stream.sublist lossy
  obtain ⟨nodupPre, nodupPost, apart⟩ := List.nodup_append.mp nodup
  have fresh : p ∉ arrivedSince pre := fun mem =>
    apart p (subset_arrivedSince mem).1 p List.mem_cons_self rfl
  have nodupOwn : (p :: (arrivedSince pre).filter fun c => c.pkt = p.pkt).Nodup := by
    refine List.nodup_cons.mpr ⟨fun mem => fresh (List.mem_of_mem_filter mem), ?_⟩
    exact (nodupPre.sublist (List.rtakeWhile_suffix _ _).sublist).filter _
  have own := ((List.perm_ext_iff_of_nodup nodupOwn (VC.nodup_stream.filter _)).mpr
    fun c => mem_waiting_iff (c := c) lossy last).length_eq
  have total := length_arrived_add_lost (pre ++ p :: post) (lossy.subset (by simp) : p ∈ w.stream v)
  have waiting := length_arrivedSince pre p
  rw [List.length_cons] at own
  omega

/-- What goes up: the packets whose last cell came and found as many leftovers as they had
lost cells. -/
theorem mem_up_iff_lost (lossy : arr.Sublist (w.stream v)) {u : Cell ι × ℕ} :
    u ∈ (Reassembly.hears Cell.hdr arr).up ↔
      ∃ pre p post, arr = pre ++ p :: post ∧ p.Last ∧
        (leftovers pre p).length = (w.lost v arr p).length ∧ u = (p, p.hdr.length) := by
  rw [Reassembly.mem_up_iff]
  refine exists_congr fun pre => exists_congr fun p => exists_congr fun post =>
    and_congr_right ?_
  rintro rfl
  have inside : ∀ c ∈ pre, c ∈ w.stream v := fun c hc =>
    lossy.subset (List.mem_append_left _ hc)
  have hp : p ∈ w.stream v := lossy.subset (by simp)
  have marked : p.hdr.pt ≠ 0 ↔ p.Last := by rw [Ne, VC.pt_eq_zero_iff hp, not_not]
  rw [marked, own_eq inside hp, List.length_reverse]
  exact and_congr_right fun last => and_congr_left fun _ => goes_up_iff lossy last

/-- What arrives of a channel goes up in complete packets only, exactly when no packet finds as
many leftovers as it has lost cells. -/
theorem onlyComplete_iff (lossy : arr.Sublist (w.stream v)) (next : Cell ι → Option (Cell ι)) :
    ∃ t, run (AtmLL.sendUp Cell.hdr) (AtmLL.init next) arr = some t ∧
      (OnlyComplete w v arr t ↔ NoStandIn w v arr) := by
  obtain ⟨t, reach, holds⟩ := AtmLL.run_holds Cell.hdr next
    (VC.nodup_stream.sublist lossy)
  have up_iff : ∀ u, u ∈ t.up ↔ ∃ pre p post, arr = pre ++ p :: post ∧ p.Last ∧
      (leftovers pre p).length = (w.lost v arr p).length ∧ u = (p, p.hdr.length) := fun u => by
    rw [holds.up]
    exact mem_up_iff_lost lossy
  have complete_iff : ∀ p, w.lost v arr p = [] ↔ ∀ c ∈ w.stream v, c.pkt = p.pkt → c ∈ arr := by
    intro p
    simp [VC.lost, List.filter_eq_nil_iff]
  refine ⟨t, reach, ?_, ?_⟩
  · intro only pre p post split last matched
    exact (complete_iff p).mpr (only _ ((up_iff _).mpr ⟨pre, p, post, split, last, matched, rfl⟩))
  · intro none u hu
    obtain ⟨pre, p, post, split, last, matched, rfl⟩ := (up_iff u).mp hu
    exact (complete_iff p).mp (none pre p post split last matched)

/-- Two packets of three cells each. -/
def twoPackets : VC := .idle 0 0 50 [100, 100]

theorem onlyComplete_iff_twoPackets :
    ∃ t, run (AtmLL.sendUp Cell.hdr) (AtmLL.init fun _ => none)
        ((twoPackets.stream ()).drop 1) = some t ∧
      (OnlyComplete twoPackets () ((twoPackets.stream ()).drop 1) t ↔
        NoStandIn twoPackets () ((twoPackets.stream ()).drop 1)) :=
  onlyComplete_iff (List.drop_sublist 1 _) fun _ => none

/-- The last cell of the first packet and the first two of the second are lost. -/
def standIn : List (Cell Unit) :=
  (twoPackets.stream ()).take 2 ++ (twoPackets.stream ()).drop 5

/-- The second packet goes up with two cells of the first one in place of its own. -/
theorem standIn_goes_up : standIn.Sublist (twoPackets.stream ()) ∧
    ∃ t, run (AtmLL.sendUp Cell.hdr) (AtmLL.init fun _ => none) standIn = some t ∧
      ¬ OnlyComplete twoPackets () standIn t := by
  refine ⟨by decide, _, rfl, fun only => ?_⟩
  have up : (⟨(), 1, 2, ⟨53, 1, 0, 100⟩⟩, 100) ∈
      [((⟨(), 1, 2, ⟨53, 1, 0, 100⟩⟩ : Cell Unit), 100)] := List.mem_singleton.mpr rfl
  exact absurd (only _ up ⟨(), 1, 0, ⟨53, 0, 0, 100⟩⟩ (by decide) rfl) (by decide)

end Mftdma.Atm
