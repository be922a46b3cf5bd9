import Mftdma.Rle.Receiver
import Mftdma.Rle.Sender

/-!
# Sequence numbers without losses

The sender numbers the last fragments of a priority over all stations, while a
receiver counts only its own. When nothing is lost, a receiver expects the number
after the one of its previous last fragment, so the two agree exactly when the
last fragments sent to other stations in between are a multiple of 256.
-/

namespace Mftdma.Rle

open Execution

/-- The last fragment of a split packet of the priority `f`. -/
def Frag.isLast (f : Fin 8) (fh : Frag) : Bool := fh.startEnd = 1 ∧ fh.fragId = f

/-- Last fragments of a priority in a stream. -/
def lasts (f : Fin 8) (fs : List Frag) : ℕ := (fs.filter (Frag.isLast f)).length

/-- Last fragments of a priority for other stations, since the previous one for
the station `index`. -/
def elsewhere (index : ℤ) (f : Fin 8) (fs : List Frag) : ℕ :=
  ((fs.filter (Frag.isLast f)).reverse.takeWhile fun fh => fh.alpdu.macDA ≠ index).length

/-- At each last fragment for the station `index`, its receiver expects the number
that the fragment has. -/
def Agrees (index : ℤ) (src : ℕ) (memory : Slot → Context AlPdu) (fs : List Frag) : Prop :=
  ∀ xs fh ys, fs = xs ++ fh :: ys → fh.startEnd = 1 → fh.alpdu.macDA = index →
    ∃ r b, run (Receiver.recvFrag index src) (Receiver.init memory) xs = some r ∧
      r.table.look src fh.fragId = some b ∧ b.expSn = fh.seqno

/-- Between the last fragments of a priority for the station `index`, and before the
first of them, the others come in multiples of 256. -/
def InStep (index : ℤ) (fs : List Frag) : Prop :=
  ∀ xs fh ys, fs = xs ++ fh :: ys → fh.startEnd = 1 → fh.alpdu.macDA = index →
    256 ∣ elsewhere index fh.fragId xs

section counts

variable {index : ℤ} {f : Fin 8} {fs : List Frag} {fh : Frag}

theorem lasts_snoc_of_not (h : fh.isLast f = false) : lasts f (fs ++ [fh]) = lasts f fs := by
  simp [lasts, h]

theorem elsewhere_snoc_of_not (h : fh.isLast f = false) :
    elsewhere index f (fs ++ [fh]) = elsewhere index f fs := by
  simp [elsewhere, h]

theorem lasts_snoc (h : fh.isLast f = true) : lasts f (fs ++ [fh]) = lasts f fs + 1 := by
  simp [lasts, h]

theorem elsewhere_snoc (h : fh.isLast f = true) : elsewhere index f (fs ++ [fh]) =
    if fh.alpdu.macDA = index then 0 else elsewhere index f fs + 1 := by
  by_cases own : fh.alpdu.macDA = index <;> simp [elsewhere, h, own]

theorem elsewhere_le (index : ℤ) (f : Fin 8) (fs : List Frag) :
    elsewhere index f fs ≤ lasts f fs := by
  have le := (List.takeWhile_sublist (l := (fs.filter (Frag.isLast f)).reverse)
    fun fh => fh.alpdu.macDA ≠ index).length_le
  rwa [List.length_reverse] at le

end counts

/-- The packet of a priority that is on its way to the station `index`. -/
def Wire.mine (w : Wire) (index : ℤ) (f : Fin 8) : Option AlPdu :=
  (w.opened f).bind fun a => if a.1.macDA = index then some a.1 else none

/-- What the buffer of a priority has to do with the sender. -/
structure LaneSync (index : ℤ) (src : ℕ) (w : Wire) (fs : List Frag) (m : Contexts AlPdu)
    (f : Fin 8) : Prop where
  pkt : (m.lane src f).bind Buffer.pkt = w.mine index f
  sn : (m.lane src f).elim 0 Buffer.expSn = BitVec.ofNat 8 (lasts f fs - elsewhere index f fs)
  next : w.next f = BitVec.ofNat 8 (lasts f fs)

/-- The receiver has seen all of `fs`, and the sender is at `w`. -/
structure Sync (index : ℤ) (src : ℕ) (w : Wire) (fs : List Frag) (r : Receiver) : Prop where
  indexed : ∃ fl, r.table.Indexed fl
  lane : ∀ f, LaneSync index src w fs r.table f

variable {index : ℤ} {src : ℕ} {w w' : Wire} {fs : List Frag} {fh : Frag} {r : Receiver}
  {m m' : Contexts AlPdu} {f : Fin 8}

theorem sync_init (index : ℤ) (src : ℕ) (memory : Slot → Context AlPdu) :
    Sync index src Wire.idle [] (Receiver.init memory) where
  indexed := Contexts.indexed_init memory
  lane _ := ⟨rfl, rfl, rfl⟩

/-- What a receiver finds when it looks up the buffer of a priority. -/
theorem Sync.look (h : Sync index src w fs r) (f : Fin 8) :
    ∃ b, r.table.look src f = some b ∧ b.pkt = w.mine index f ∧
      b.expSn = BitVec.ofNat 8 (lasts f fs - elsewhere index f fs) := by
  obtain ⟨fl, indexed⟩ := h.indexed
  obtain ⟨b, found, used, new⟩ := indexed.look src f
  refine ⟨b, found, ?_, ?_⟩
  · rw [← (h.lane f).pkt]
    cases lane : r.table.lane src f with
    | none => exact (new lane).1
    | some d => rw [used d lane]; rfl
  · rw [← (h.lane f).sn]
    cases lane : r.table.lane src f with
    | none => exact (new lane).2
    | some d => rw [used d lane]; rfl

/-- The other priorities stay in step. -/
theorem LaneSync.other (h : LaneSync index src w fs m f) (sends : w.Sends fh w')
    (other : f ≠ fh.fragId) (same : m'.lane src f = m.lane src f) :
    LaneSync index src w' (fs ++ [fh]) m' f := by
  have not : fh.isLast f = false := by simp [Frag.isLast, Ne.symm other]
  obtain ⟨opened, next⟩ := sends.other other
  refine ⟨?_, ?_, ?_⟩
  · rw [same, h.pkt, Wire.mine, Wire.mine, opened]
  · rw [same, h.sn, lasts_snoc_of_not not, elsewhere_snoc_of_not not]
  · rw [next, h.next, lasts_snoc_of_not not]

private theorem isLast_of_startEnd {se : BitVec 32} (h : fh.startEnd = se) (f : Fin 8) :
    fh.isLast f = decide (se = 1 ∧ fh.fragId = f) := by
  rw [Frag.isLast, h]

private theorem ofNat_succ (n : ℕ) : BitVec.ofNat 8 (n + 1) = BitVec.ofNat 8 n + 1 :=
  BitVec.ofNat_add n 1

/-- The number that a receiver expects stays as it is, unless a last fragment for it comes. -/
theorem expected_of_open (index : ℤ) (fs : List Frag) (open_ : fh.isLast f = false) :
    lasts f (fs ++ [fh]) - elsewhere index f (fs ++ [fh]) = lasts f fs - elsewhere index f fs := by
  rw [lasts_snoc_of_not open_, elsewhere_snoc_of_not open_]

theorem expected_of_skipped (fs : List Frag) (f : Fin 8)
    (skipped : fh.alpdu.macDA ≠ index ∨ fh.startEnd = 3) :
    lasts f (fs ++ [fh]) - elsewhere index f (fs ++ [fh]) = lasts f fs - elsewhere index f fs := by
  cases isLast : fh.isLast f with
  | false => exact expected_of_open index fs isLast
  | true =>
      have away : fh.alpdu.macDA ≠ index := skipped.resolve_right fun se => by
        simp [isLast_of_startEnd se] at isLast
      rw [lasts_snoc isLast, elsewhere_snoc isLast, if_neg away, Nat.add_sub_add_right]

/-- The sender numbers the last fragments, wherever they go. -/
theorem LaneSync.next_step (h : LaneSync index src w fs m fh.fragId) (sends : w.Sends fh w') :
    w'.next fh.fragId = BitVec.ofNat 8 (lasts fh.fragId (fs ++ [fh])) := by
  cases sends with
  | whole se closed new =>
      rw [lasts_snoc_of_not (by simp [isLast_of_startEnd se])]
      exact h.next
  | first se closed new =>
      rw [lasts_snoc_of_not (by simp [isLast_of_startEnd se])]
      exact h.next
  | middle rest se opened =>
      rw [lasts_snoc_of_not (by simp [isLast_of_startEnd se])]
      exact h.next
  | last se opened seqno =>
      refine (Function.update_self ..).trans ?_
      rw [h.next, lasts_snoc (by simp [isLast_of_startEnd se]), ofNat_succ]

/-- The priority of a fragment that the receiver skips stays in step, too. -/
theorem LaneSync.skip (h : LaneSync index src w fs m fh.fragId) (sends : w.Sends fh w')
    (skipped : fh.alpdu.macDA ≠ index ∨ fh.startEnd = 3) :
    LaneSync index src w' (fs ++ [fh]) m fh.fragId := by
  have pkt := h.pkt
  refine ⟨?_, ?_, h.next_step sends⟩
  · cases sends with
    | whole se closed new => exact pkt
    | first se closed new =>
        have away : fh.alpdu.macDA ≠ index := skipped.resolve_right (by simp [se])
        simpa [Wire.mine, closed, away] using pkt
    | middle rest se opened =>
        have away : fh.alpdu.macDA ≠ index := skipped.resolve_right (by simp [se])
        simpa [Wire.mine, opened, away] using pkt
    | last se opened seqno =>
        have away : fh.alpdu.macDA ≠ index := skipped.resolve_right (by simp [se])
        simpa [Wire.mine, opened, away] using pkt
  · rw [expected_of_skipped fs fh.fragId skipped]
    exact h.sn

/-- A fragment for this station keeps its priority in step, and does not crash
the receiver. -/
theorem LaneSync.receive {b : Buffer AlPdu} (h : LaneSync index src w fs m fh.fragId)
    (sends : w.Sends fh w') (own : fh.alpdu.macDA = index) (part : fh.startEnd ≠ 3)
    (pkt : b.pkt = w.mine index fh.fragId)
    (sn : b.expSn = BitVec.ofNat 8 (lasts fh.fragId fs - elsewhere index fh.fragId fs)) :
    ∃ b' up, b.receive fh = some (b', up) ∧
      ∀ m' : Contexts AlPdu, m'.lane src fh.fragId = some b' →
        LaneSync index src w' (fs ++ [fh]) m' fh.fragId := by
  have next := h.next_step sends
  cases sends with
  | whole se => exact absurd se part
  | first se closed new =>
      have open_ : fh.isLast fh.fragId = false := by simp [isLast_of_startEnd se]
      have empty : b.pkt = none := by simpa [Wire.mine, closed] using pkt
      refine ⟨b.add fh, [], by simp [Buffer.receive, se], fun m' lane => ⟨?_, ?_, next⟩⟩
      · simp [lane, Buffer.add, Buffer.start, se, Wire.mine, own]
      · rw [expected_of_open index fs open_]
        simpa [lane, Buffer.add, Buffer.start, se, empty] using sn
  | middle rest se opened =>
      have open_ : fh.isLast fh.fragId = false := by simp [isLast_of_startEnd se]
      have busy : b.pkt = some fh.alpdu := by simpa [Wire.mine, opened, own] using pkt
      refine ⟨b.add fh, [], by simp [Buffer.receive, se], fun m' lane => ⟨?_, ?_, next⟩⟩
      · simp [lane, Buffer.add, Buffer.start, se, busy, Wire.mine, own]
      · rw [expected_of_open index fs open_]
        simpa [lane, Buffer.add, Buffer.start, se] using sn
  | last se opened seqno =>
      have isLast : fh.isLast fh.fragId = true := by simp [isLast_of_startEnd se]
      have busy : b.pkt = some fh.alpdu := by simpa [Wire.mine, opened, own] using pkt
      obtain ⟨len, up, received⟩ := Buffer.receive_last se busy
      refine ⟨_, up, received, fun m' lane => ⟨?_, ?_, next⟩⟩
      · simp [lane, Wire.mine]
      · rw [lane, lasts_snoc isLast, elsewhere_snoc isLast, if_pos own, Nat.sub_zero, ofNat_succ,
          ← h.next, ← seqno]
        rfl

/-- Sender and receiver stay in step over each fragment. -/
theorem Sync.step (h : Sync index src w fs r) (sends : w.Sends fh w') :
    ∃ r', r.recvFrag index src fh = some r' ∧ Sync index src w' (fs ++ [fh]) r' := by
  by_cases skipped : fh.alpdu.macDA ≠ index ∨ fh.startEnd = 3
  · obtain ⟨up, same⟩ := r.recvFrag_skip src skipped
    refine ⟨_, same, h.indexed, fun f => ?_⟩
    by_cases here : f = fh.fragId
    · subst here
      exact (h.lane fh.fragId).skip sends skipped
    · exact (h.lane f).other sends here rfl
  · obtain ⟨own, part⟩ := not_or.mp skipped
    have own := not_not.mp own
    obtain ⟨fl, indexed⟩ := h.indexed
    obtain ⟨b, found, -, effect⟩ := Receiver.recvFrag_lane src indexed own part
    obtain ⟨b', found', pkt, sn⟩ := h.look fh.fragId
    obtain rfl := Option.some.inj (found.symm.trans found')
    obtain ⟨b', up, received, keep⟩ := (h.lane fh.fragId).receive sends own part pkt sn
    obtain ⟨r', result, -, indexed', lane, others⟩ := effect b' up received
    refine ⟨r', result, indexed', fun f => ?_⟩
    by_cases here : f = fh.fragId
    · subst here
      exact keep r'.table lane
    · exact (h.lane f).other sends here (others src f (Contexts.bucket_ne src here))

/-- The receiver keeps up with any legal stream. -/
theorem sync_run (index : ℤ) (src : ℕ) (memory : Slot → Context AlPdu) (legal : Legal fs w) :
    ∃ r, run (Receiver.recvFrag index src) (Receiver.init memory) fs = some r ∧
      Sync index src w fs r := by
  induction fs using List.reverseRecOn generalizing w with
  | nil =>
      cases legal
      exact ⟨_, rfl, sync_init index src memory⟩
  | append_singleton fs fh ih =>
      obtain ⟨w', legal', sends⟩ := legal_snoc_iff.mp legal
      obtain ⟨r, reach, sync⟩ := ih legal'
      obtain ⟨r', step, sync'⟩ := sync.step sends
      exact ⟨r', run_snoc_eq_some.mpr ⟨r, reach, step⟩, sync'⟩

/-- The number expected is the number sent exactly when the others since the last
one are a multiple of 256. -/
private theorem ofNat_sub_eq_iff {n k : ℕ} (le : k ≤ n) :
    BitVec.ofNat 8 (n - k) = BitVec.ofNat 8 n ↔ 256 ∣ k := by
  rw [← BitVec.toNat_inj, BitVec.toNat_ofNat, BitVec.toNat_ofNat]
  omega

/-- Without losses, receivers expect the numbers they get exactly when the last
fragments of a priority for other stations come in multiples of 256. -/
theorem seqno_agrees_iff (src : ℕ) (memory : ℤ → Slot → Context AlPdu) (es : List SenderEvent) :
    (∀ index, Agrees index src (memory index) (Sender.init.bursts es).flatten) ↔
      ∀ index, InStep index (Sender.init.bursts es).flatten := by
  obtain ⟨w, legal⟩ := bursts_legal es
  refine forall_congr' fun index => forall_congr' fun xs => forall_congr' fun fh =>
    forall_congr' fun ys => forall_congr' fun split => forall_congr' fun se =>
    forall_congr' fun own => ?_
  rw [split] at legal
  obtain ⟨w₀, before, rest⟩ := legal.prefix
  obtain ⟨r, reach, sync⟩ := sync_run index src (memory index) before
  obtain ⟨b, found, -, sn⟩ := sync.look fh.fragId
  have seqno : fh.seqno = BitVec.ofNat 8 (lasts fh.fragId xs) := by
    cases rest with
    | cons sends _ => rw [(sends.of_last se).2, (sync.lane fh.fragId).next]
  rw [← ofNat_sub_eq_iff (elsewhere_le index fh.fragId xs), ← sn, ← seqno]
  constructor
  · rintro ⟨r', b', reach', found', expected⟩
    obtain rfl := Option.some.inj (reach.symm.trans reach')
    obtain rfl := Option.some.inj (found.symm.trans found')
    exact expected
  · exact fun expected => ⟨r, b, reach, found, expected⟩

/-- Two packets of one priority, for the stations 2 and 1, and three slots that
split both of them. -/
def twoStations : List SenderEvent :=
  [.urgent 2 20, .urgent 1 20, .slot 12, .slot 30, .slot 30]

/-- Station 1 still expects number 0 when it gets the last fragment number 1. -/
theorem twoStations_disagree :
    ¬ Agrees 1 0 (fun _ => Context.zero) (Sender.init.bursts twoStations).flatten := by
  intro agrees
  obtain ⟨r, b, reach, found, expected⟩ := agrees
    ((Sender.init.bursts twoStations).flatten.take 3)
    { startEnd := 1, length := 10, fragId := 0, seqno := 1
      alpdu := { uid := 1, macDA := 1, totalLength := 23 } } [] (by decide +kernel) rfl rfl
  have zero : ((run (Receiver.recvFrag 1 0) (Receiver.init fun _ => Context.zero)
      ((Sender.init.bursts twoStations).flatten.take 3)).bind fun r =>
        (r.table.look 0 0).map Buffer.expSn) = some 0 := by
    decide +kernel
  rw [reach, Option.bind_some, found, Option.map_some, expected] at zero
  exact absurd (Option.some.inj zero) (by decide)

end Mftdma.Rle
