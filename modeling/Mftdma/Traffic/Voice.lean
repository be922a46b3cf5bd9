import Mathlib.Algebra.Order.Field.Basic
import Mathlib.Data.List.Sort
import Mathlib.Data.Rat.Cast.Order
import Mathlib.Tactic.NormNum
import Mathlib.Tactic.Positivity
import Mftdma.Data.Window
import Mftdma.Execution.Run

/-!
# Voice scores

A `Voice` keeps the delays of the packets it receives in `dd_buf`, as a ring that
`process_data` writes in order of arrival, and `rscore` sorts the same buffer in place. The
loss ratio compares the packets received with an estimate of the packets sent, from the
first and the latest sequence number.

`Listener` keeps beside the object what it received since its last `reset`, the latest packet
first. The results say for which arrivals the buffer is the window of the latest delays, and
for which the estimate is one. Numbers are exact; the logarithm is a parameter.
-/

namespace Mftdma.Traffic

open Execution Window

/-- `MAX_D_SAMP` -/
def maxDSamp : ℕ := 1000

structure Voice where
  ddBuf : ℕ → ℚ
  rxTot : ℕ
  initSeqno : ℤ
  curDelay : ℚ
  lossRatio : ℚ
  delay : ℚ
  score : ℚ
  mos : ℚ
  lossPlayout : ℚ

namespace Voice

/-- `Voice::reset` -/
def reset (v : Voice) : Voice := { v with curDelay := 0, rxTot := 0 }

/-- The part of `process_data` that stores the delay. -/
def store (v : Voice) (d : ℚ) : Voice :=
  { v with
    curDelay := d
    ddBuf := Function.update v.ddBuf (v.rxTot % maxDSamp) d
    rxTot := v.rxTot + 1 }

/-- `if (rx_tot_ == 1) init_seqno = hvp->seqno;` -/
def noteFirst (v : Voice) (seqno : ℤ) : Voice :=
  if v.rxTot = 1 then { v with initSeqno := seqno } else v

/-- `tx_est`, the number of packets sent as the code estimates it. -/
def txEst (v : Voice) (seqno : ℤ) : ℤ := seqno - v.initSeqno + 1

/-- `loss_ratio_ = 1.0 - double(rx_tot_)/tx_est;` -/
def estimate (v : Voice) (seqno : ℤ) : Voice :=
  { v with lossRatio := 1 - v.rxTot / v.txEst seqno }

/-- `Voice::process_data` of a packet with the fields `seqno` and `tx_time`, at the time `now`. -/
def processData (v : Voice) (seqno : ℤ) (txTime now : ℚ) : Voice :=
  ((v.store ((now - txTime) * 1000)).noteFirst seqno).estimate seqno

/-- `sort(dd_buf, dd_buf+ss);` -/
def sortBuf (ss : ℕ) (buf : ℕ → ℚ) (i : ℕ) : ℚ :=
  (((List.range ss).map buf).insertionSort (· ≤ ·))[i]?.getD (buf i)

/-- The score of a playout that loses the share `e` and has the delay `d`. -/
def scoreOf (log : ℚ → ℚ) (e d : ℚ) : ℚ :=
  let Ie := 10 + 47.82 * log (1 + 18 * e)
  let Id := d * 0.024 + if 177.3 < d then 0.11 * (d - 177.3) else 0
  94.2 - (Ie + Id)

/-- One pass of the loop of `rscore`, over the sample `i` of `ss`. -/
def tryPlayout (log : ℚ → ℚ) (ss : ℕ) (v : Voice) (i : ℕ) : Voice :=
  let e := ((ss : ℚ) - 1 - i) / ss + v.lossRatio
  let score := scoreOf log e (v.ddBuf i)
  if v.score < score then { v with delay := v.ddBuf i, score := score, lossPlayout := e } else v

/-- `mos_` of an R-score. -/
def mosOf (r : ℚ) : ℚ := 1 + 0.035 * r + 7 / 1000000 * r * (r - 60) * (100 - r)

/-- `Voice::rscore`, the command `update_score`. -/
def rscore (log : ℚ → ℚ) (v : Voice) : Voice :=
  let ss := min maxDSamp v.rxTot
  let sorted := { v with ddBuf := sortBuf ss v.ddBuf, score := 0 }
  let best := (List.range ss).foldl (tryPlayout log ss) sorted
  { best with mos := mosOf best.score }

theorem foldl_tryPlayout (log : ℚ → ℚ) (ss : ℕ) (is : List ℕ) (v : Voice) :
    (is.foldl (tryPlayout log ss) v).ddBuf = v.ddBuf ∧
      (is.foldl (tryPlayout log ss) v).rxTot = v.rxTot ∧
      (is.foldl (tryPlayout log ss) v).initSeqno = v.initSeqno := by
  induction is generalizing v with
  | nil => exact ⟨rfl, rfl, rfl⟩
  | cons i is ih =>
      obtain ⟨buf, tot, init⟩ := ih (tryPlayout log ss v i)
      have kept : (tryPlayout log ss v i).ddBuf = v.ddBuf ∧
          (tryPlayout log ss v i).rxTot = v.rxTot ∧
          (tryPlayout log ss v i).initSeqno = v.initSeqno := by
        unfold tryPlayout
        dsimp only
        split_ifs
        · exact ⟨rfl, rfl, rfl⟩
        · exact ⟨rfl, rfl, rfl⟩
      exact ⟨buf.trans kept.1, tot.trans kept.2.1, init.trans kept.2.2⟩

theorem rscore_ddBuf (log : ℚ → ℚ) (v : Voice) :
    (v.rscore log).ddBuf = sortBuf (min maxDSamp v.rxTot) v.ddBuf :=
  (foldl_tryPlayout log _ _ _).1

@[simp] theorem rscore_rxTot (log : ℚ → ℚ) (v : Voice) : (v.rscore log).rxTot = v.rxTot :=
  (foldl_tryPlayout log _ _ _).2.1

@[simp] theorem rscore_initSeqno (log : ℚ → ℚ) (v : Voice) :
    (v.rscore log).initSeqno = v.initSeqno :=
  (foldl_tryPlayout log _ _ _).2.2

@[simp] theorem processData_rxTot (v : Voice) (seqno : ℤ) (txTime now : ℚ) :
    (v.processData seqno txTime now).rxTot = v.rxTot + 1 := by
  simp only [processData, estimate, noteFirst]
  split <;> rfl

theorem processData_ddBuf (v : Voice) (seqno : ℤ) (txTime now : ℚ) :
    (v.processData seqno txTime now).ddBuf =
      Function.update v.ddBuf (v.rxTot % maxDSamp) ((now - txTime) * 1000) := by
  simp only [processData, estimate, noteFirst]
  split <;> rfl

theorem processData_initSeqno (v : Voice) (seqno : ℤ) (txTime now : ℚ) :
    (v.processData seqno txTime now).initSeqno = if v.rxTot = 0 then seqno else v.initSeqno := by
  simp only [processData, estimate, noteFirst, store, Nat.add_eq_right]
  split <;> rfl

theorem processData_lossRatio (v : Voice) (seqno : ℤ) (txTime now : ℚ) :
    (v.processData seqno txTime now).lossRatio =
      1 - ((v.rxTot + 1 : ℕ) : ℚ) / (v.processData seqno txTime now).txEst seqno := by
  rw [← processData_rxTot v seqno txTime now]
  rfl

/-- Sorting permutes the samples. -/
theorem sortBuf_perm (ss : ℕ) (buf : ℕ → ℚ) :
    ((List.range ss).map (sortBuf ss buf)).Perm ((List.range ss).map buf) := by
  have sorted : (List.range ss).map (sortBuf ss buf) =
      ((List.range ss).map buf).insertionSort (· ≤ ·) := by
    apply List.ext_getElem
    · simp
    · intro i h h'
      rw [List.getElem_map, List.getElem_range, sortBuf, List.getElem?_eq_getElem h']
      rfl
  rw [sorted]
  exact List.perm_insertionSort _ _

/-- The first sample is the least. -/
theorem sortBuf_zero_le {ss i : ℕ} (buf : ℕ → ℚ) (hi : i < ss) : sortBuf ss buf 0 ≤ buf i := by
  have mem : buf i ∈ ((List.range ss).map buf).insertionSort (· ≤ ·) :=
    (List.perm_insertionSort _ _).mem_iff.mpr
      (List.mem_map.mpr ⟨i, List.mem_range.mpr hi, rfl⟩)
  have ordered := List.pairwise_insertionSort (· ≤ ·) ((List.range ss).map buf)
  unfold sortBuf
  cases sorted : ((List.range ss).map buf).insertionSort (· ≤ ·) with
  | nil =>
      rw [sorted] at mem
      cases mem
  | cons x xs =>
      rw [sorted] at mem ordered
      obtain same | later := List.mem_cons.mp mem
      · exact same.ge
      · exact (List.pairwise_cons.mp ordered).1 _ later

end Voice

/-- A new object, all zero. -/
def Voice.fresh : Voice where
  ddBuf _ := 0
  rxTot := 0
  initSeqno := 0
  curDelay := 0
  lossRatio := 0
  delay := 0
  score := 0
  mos := 0
  lossPlayout := 0

/-- What a `Voice` is told: `reset`, a packet with its header fields and the time when it
arrives, or `update_score`. -/
inductive VoiceEvent where
  | reset
  | processData (seqno : ℤ) (txTime now : ℚ)
  | updateScore

/-- A packet received, and its delay. -/
structure Received where
  seqno : ℤ
  delay : ℚ

/-- A `Voice`, and the packets it received since its last `reset`, the latest first. -/
structure Listener where
  voice : Voice
  received : List Received

/-- Every event has a next state. -/
def Listener.step (log : ℚ → ℚ) (l : Listener) : VoiceEvent → Option Listener
  | .reset => some ⟨l.voice.reset, []⟩
  | .processData seqno txTime now => some
      ⟨l.voice.processData seqno txTime now, ⟨seqno, (now - txTime) * 1000⟩ :: l.received⟩
  | .updateScore => some ⟨l.voice.rscore log, l.received⟩

/-- The object after a `reset`. -/
def Voice.listen (v : Voice) : Listener := ⟨v.reset, []⟩

namespace Listener

/-- The packets are counted, and the first of them is noted. -/
structure Counts (l : Listener) : Prop where
  total : l.voice.rxTot = l.received.length
  first : ∀ r ∈ l.received.getLast?, l.voice.initSeqno = r.seqno

theorem listen_counts (v : Voice) : v.listen.Counts := ⟨rfl, by simp [Voice.listen]⟩

variable {log : ℚ → ℚ} {l l' : Listener} {e : VoiceEvent} {es : List VoiceEvent}

/-- Every event keeps the counts. -/
theorem Counts.step (h : l.Counts) (step : l.step log e = some l') : l'.Counts := by
  cases e with
  | reset =>
      obtain rfl := Option.some.inj step
      exact listen_counts l.voice
  | processData seqno txTime now =>
      obtain rfl := Option.some.inj step
      refine ⟨?_, fun r hr => ?_⟩
      · rw [Voice.processData_rxTot, h.total, List.length_cons]
      · rw [Voice.processData_initSeqno, h.total]
        cases found : l.received with
        | nil =>
            rw [found] at hr
            obtain rfl := Option.some.inj hr
            rfl
        | cons r' rest =>
            rw [found, List.getLast?_cons_cons] at hr
            rw [if_neg (by simp)]
            exact h.first r (found ▸ hr)
  | updateScore =>
      obtain rfl := Option.some.inj step
      exact ⟨by simp [h.total], fun r hr => by simp [h.first r hr]⟩

/-! ## The window of delays -/

/-- The samples that `rscore` looks at are the delays of the latest packets. -/
def Window (l : Listener) : Prop :=
  ((List.range (min maxDSamp l.voice.rxTot)).map l.voice.ddBuf).Perm
    ((l.received.take (min maxDSamp l.voice.rxTot)).map Received.delay)

/-- The sample that `process_data` is about to overwrite is the delay of the packet received
`MAX_D_SAMP` packets ago. -/
def ReplacesOldest (l : Listener) (e : VoiceEvent) : Prop :=
  ∀ seqno txTime now, e = .processData seqno txTime now →
    ∀ r ∈ l.received[maxDSamp - 1]?, l.voice.ddBuf (l.voice.rxTot % maxDSamp) = r.delay

/-- In the terms of circular buffers. -/
theorem window_iff_unordered (counts : l.Counts) :
    l.Window ↔ Unordered maxDSamp l.voice.ddBuf (l.received.map Received.delay) := by
  unfold Window Unordered
  rw [counts.total, List.length_map, ← List.map_take, ← List.take_eq_take_min]

/-- No packet leaves the window before it is full. -/
theorem replacesOldest_of_lt (few : l.received.length < maxDSamp) : l.ReplacesOldest e := by
  rintro _ _ _ - r hr
  obtain ⟨inside, -⟩ := List.getElem?_eq_some_iff.mp hr
  omega

/-- A packet keeps the window exactly when its delay replaces the one that leaves it. -/
theorem window_processData (counts : l.Counts) (window : l.Window) {seqno : ℤ} {txTime now : ℚ}
    (step : l.step log (.processData seqno txTime now) = some l') :
    l'.Window ↔ l.ReplacesOldest (.processData seqno txTime now) := by
  have counts' := counts.step step
  obtain rfl := Option.some.inj step
  have number : (l.received.map Received.delay).length = l.voice.rxTot := by
    rw [counts.total, List.length_map]
  rw [window_iff_unordered counts] at window
  rw [window_iff_unordered counts', Voice.processData_ddBuf, List.map_cons]
  obtain filling | full := Nat.lt_or_ge l.received.length maxDSamp
  · have pushed := window.push_of_lt (by rwa [List.length_map]) ((now - txTime) * 1000)
    rw [number] at pushed
    exact iff_of_true pushed (replacesOldest_of_lt filling)
  · have long : maxDSamp - 1 < l.received.length := full
    have long' : maxDSamp - 1 < (l.received.map Received.delay).length := by
      rwa [List.length_map]
    have oldest : l.received[maxDSamp - 1]? = some l.received[maxDSamp - 1] :=
      List.getElem?_eq_getElem long
    have pushed := window.push_iff (by decide) long' ((now - txTime) * 1000)
    rw [number, List.getElem_map] at pushed
    rw [pushed]
    constructor
    · rintro same _ _ _ - r hr
      obtain rfl := Option.some.inj (oldest.symm.trans hr)
      exact same
    · intro replaces
      exact replaces seqno txTime now rfl _ oldest

/-- A score keeps it, for it permutes the samples. -/
theorem Window.rscore (window : l.Window) (step : l.step log .updateScore = some l') :
    l'.Window := by
  obtain rfl := Option.some.inj step
  unfold Window at window ⊢
  rw [Voice.rscore_rxTot, Voice.rscore_ddBuf]
  exact (Voice.sortBuf_perm _ _).trans window

/-- What one event does to the window. -/
theorem window_step_iff (counts : l.Counts) (window : l.Window) (step : l.step log e = some l') :
    l'.Window ↔ l.ReplacesOldest e := by
  cases e with
  | reset =>
      obtain rfl := Option.some.inj step
      exact iff_of_true (.refl _) fun _ _ _ none => by cases none
  | processData seqno txTime now => exact window_processData counts window step
  | updateScore => exact iff_of_true (window.rscore step) fun _ _ _ none => by cases none

/-- From a `reset` on, whatever packets come and scores are asked for, the samples are the
delays of the latest packets exactly as long as every packet replaces the oldest delay. -/
theorem window_iff (log : ℚ → ℚ) (v : Voice) (es : List VoiceEvent) :
    Throughout (Listener.step log) Window v.listen es ↔
      Along (Listener.step log) ReplacesOldest v.listen es := by
  refine throughout_iff_along_of_stuck (W := Counts) (listen_counts v) (.refl _)
    (fun _ _ _ counts step => counts.step step)
    (fun _ _ _ counts window step => window_step_iff counts window step) ?_
  intro l e _ stuck
  cases e with
  | reset => cases stuck
  | processData seqno txTime now => cases stuck
  | updateScore => cases stuck

/-- After packets only, the object has received these. -/
theorem run_packets (log : ℚ → ℚ) (ps : List (ℤ × ℚ × ℚ)) (l : Listener) : ∃ t,
    run (Listener.step log) l (ps.map fun p => .processData p.1 p.2.1 p.2.2) = some t ∧
      t.received = (ps.map fun p => ⟨p.1, (p.2.2 - p.2.1) * 1000⟩).reverse ++ l.received := by
  induction ps generalizing l with
  | nil => exact ⟨l, rfl, rfl⟩
  | cons p ps ih =>
      obtain ⟨t, reach, received⟩ := ih ⟨l.voice.processData p.1 p.2.1 p.2.2,
        ⟨p.1, (p.2.2 - p.2.1) * 1000⟩ :: l.received⟩
      refine ⟨t, reach, ?_⟩
      rw [received, List.map_cons, List.reverse_cons, List.append_assoc, List.singleton_append]

/-- A thousand packets, the first of which takes two seconds and the others one. -/
def aged : List (ℤ × ℚ × ℚ) :=
  (0, 0, 2) :: (List.range 999).map fun i : ℕ => ((i : ℤ) + 1, (i : ℚ) + 1, (i : ℚ) + 2)

/-- The first packet of `aged` is the oldest, and another one was faster. -/
theorem received_aged {l : Listener} (received : l.received =
      (aged.map fun p => (⟨p.1, (p.2.2 - p.2.1) * 1000⟩ : Received)).reverse ++ []) :
    l.received[maxDSamp - 1]? = some ⟨0, 2000⟩ ∧ l.received.length = maxDSamp ∧
      ⟨1, 1000⟩ ∈ l.received := by
  have split : l.received = ((List.range 999).map fun i : ℕ =>
      (⟨(i : ℤ) + 1, ((i : ℚ) + 2 - ((i : ℚ) + 1)) * 1000⟩ : Received)).reverse ++ [⟨0, 2000⟩] := by
    rw [received, aged, List.append_nil, List.map_cons, List.reverse_cons, List.map_map]
    norm_num
  have count : ((List.range 999).map fun i : ℕ =>
      (⟨(i : ℤ) + 1, ((i : ℚ) + 2 - ((i : ℚ) + 1)) * 1000⟩ : Received)).reverse.length = 999 := by
    rw [List.length_reverse, List.length_map, List.length_range]
  rw [split]
  refine ⟨?_, ?_, ?_⟩
  · rw [List.getElem?_append_right (by rw [count]; decide), count]
    rfl
  · rw [List.length_append, count]
    rfl
  · refine List.mem_append_left _ (List.mem_reverse.mpr (List.mem_map.mpr ⟨0, by simp, ?_⟩))
    norm_num

/-- A score sorts the thousand samples, and the next packet replaces one of the least delays
instead of the oldest. -/
theorem aged_loses_window : ¬ Throughout (Listener.step fun _ => 0) Window Voice.fresh.listen
    ((aged.map fun p => .processData p.1 p.2.1 p.2.2) ++
      [.updateScore, .processData 1000 1000 1001]) := by
  intro all
  obtain ⟨a, reach, received⟩ := run_packets (fun _ => 0) aged Voice.fresh.listen
  have counts : a.Counts :=
    run_invariant (listen_counts _) (fun _ _ _ kept step => kept.step step) reach
  obtain ⟨oldest, length, other⟩ := received_aged received
  obtain ⟨before, rest⟩ := all.of_run_append reach
  have score : a.step (fun _ => 0) .updateScore =
      some ⟨a.voice.rscore fun _ => 0, a.received⟩ := rfl
  have scored := rest _ score
  obtain ⟨c, packet⟩ : ∃ c, Listener.step (fun _ => 0) ⟨a.voice.rscore fun _ => 0, a.received⟩
      (.processData 1000 1000 1001) = some c := ⟨_, rfl⟩
  have replaces := (window_step_iff (counts.step score) scored.head packet).mp
    (scored.2 c packet)
  have slot : (a.voice.rscore fun _ => 0).ddBuf
      ((a.voice.rscore fun _ => 0).rxTot % maxDSamp) = 2000 :=
    replaces 1000 1000 1001 rfl _ oldest
  have full : a.voice.rxTot = maxDSamp := counts.total.trans length
  rw [Voice.rscore_rxTot, Voice.rscore_ddBuf, full, Nat.mod_self, min_self] at slot
  unfold Window at before
  rw [full, min_self, ← length, List.take_length] at before
  obtain ⟨i, hi, fast⟩ := List.mem_map.mp
    (before.mem_iff.mpr (List.mem_map.mpr ⟨_, other, rfl⟩))
  rw [length] at hi
  have least := Voice.sortBuf_zero_le a.voice.ddBuf (List.mem_range.mp hi)
  rw [slot, show a.voice.ddBuf i = 1000 from fast] at least
  exact absurd least (by norm_num)

/-! ## The estimate of the packets sent -/

/-- The estimate is one, and the loss ratio computed from it a ratio. -/
structure GoodEstimate (v : Voice) (seqno : ℤ) : Prop where
  txEst : 1 ≤ v.txEst seqno
  nonneg : 0 ≤ v.lossRatio
  lt_one : v.lossRatio < 1

/-- `process_data` is to leave a good estimate. -/
def Estimates (l : Listener) (e : VoiceEvent) : Prop :=
  ∀ seqno txTime now, e = .processData seqno txTime now →
    GoodEstimate (l.voice.processData seqno txTime now) seqno

/-- The sequence number of the first packet, when one with `seqno` comes now. -/
def firstSeqno (l : Listener) (seqno : ℤ) : ℤ :=
  (l.received.getLast?.map Received.seqno).getD seqno

/-- No more packets came before this one than there are sequence numbers from the first packet
up to it. -/
def InStep (l : Listener) (e : VoiceEvent) : Prop :=
  ∀ seqno txTime now, e = .processData seqno txTime now →
    (l.received.length : ℤ) ≤ seqno - l.firstSeqno seqno

/-- The estimate that `process_data` makes. -/
theorem Counts.txEst (counts : l.Counts) (seqno : ℤ) (txTime now : ℚ) :
    (l.voice.processData seqno txTime now).txEst seqno = seqno - l.firstSeqno seqno + 1 := by
  rw [Voice.txEst, Voice.processData_initSeqno, counts.total, firstSeqno]
  cases found : l.received with
  | nil => rfl
  | cons r rest =>
      obtain ⟨last, hlast⟩ : ∃ last, (r :: rest).getLast? = some last :=
        ⟨_, List.getLast?_eq_some_getLast (List.cons_ne_nil r rest)⟩
      rw [if_neg (by simp), hlast, counts.first last (found ▸ hlast)]
      rfl

/-- A loss ratio is one when no more packets were received than sent. -/
theorem ratio_iff (received : ℕ) (sent : ℤ) :
    (1 ≤ sent ∧ 0 ≤ 1 - ((received + 1 : ℕ) : ℚ) / sent ∧
      1 - ((received + 1 : ℕ) : ℚ) / sent < 1) ↔ (received : ℤ) + 1 ≤ sent := by
  constructor
  · rintro ⟨some, nonneg, -⟩
    have pos : (0 : ℚ) < sent := by exact_mod_cast some
    rw [sub_nonneg, div_le_one pos] at nonneg
    exact_mod_cast nonneg
  · intro le
    have some : 1 ≤ sent := by omega
    have pos : (0 : ℚ) < sent := by exact_mod_cast some
    have share : (0 : ℚ) < ((received + 1 : ℕ) : ℚ) / sent := by positivity
    refine ⟨some, ?_, sub_lt_self 1 share⟩
    rw [sub_nonneg, div_le_one pos]
    exact_mod_cast le

theorem goodEstimate_iff (counts : l.Counts) (seqno : ℤ) (txTime now : ℚ) :
    GoodEstimate (l.voice.processData seqno txTime now) seqno ↔
      (l.received.length : ℤ) ≤ seqno - l.firstSeqno seqno := by
  have ratio := ratio_iff l.received.length
    ((l.voice.processData seqno txTime now).txEst seqno)
  rw [← counts.total, ← Voice.processData_lossRatio, counts.txEst, counts.total] at ratio
  have estimate := counts.txEst seqno txTime now
  constructor
  · rintro ⟨some, nonneg, lt⟩
    rw [estimate] at some
    have := ratio.mp ⟨some, nonneg, lt⟩
    omega
  · intro le
    obtain ⟨some, nonneg, lt⟩ := ratio.mpr (by omega)
    exact ⟨estimate ▸ some, nonneg, lt⟩

/-- From a `reset` on, `process_data` leaves good estimates exactly when each packet comes in
step with the sequence numbers. -/
theorem estimates_iff (log : ℚ → ℚ) (v : Voice) (es : List VoiceEvent) :
    Along (Listener.step log) Estimates v.listen es ↔
      Along (Listener.step log) InStep v.listen es := by
  refine along_congr (listen_counts v) (fun _ _ _ counts step => counts.step step) ?_
  intro l e counts
  exact forall₃_congr fun seqno txTime now =>
    imp_congr_right fun _ => goodEstimate_iff counts seqno txTime now

/-- Two packets that overtake each other make the estimate zero. -/
theorem overtaken_not_estimates : ¬ ∀ seqnos : List ℤ, seqnos.Nodup →
    Along (Listener.step fun _ => 0) Estimates Voice.fresh.listen
      (seqnos.map fun seqno => .processData seqno 0 1) := by
  intro all
  obtain ⟨-, rest⟩ := all [1, 0] (by decide)
  obtain ⟨second, -⟩ := rest _ rfl
  have some := (second 0 0 1 rfl).txEst
  revert some
  decide

end Listener

end Mftdma.Traffic
