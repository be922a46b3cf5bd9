import Mathlib.Tactic.Linarith
import Mftdma.Traffic.Voice

/-!
# The playout delay of a score

A receiver that plays each packet `d` after it has been sent loses the packets that take
longer, besides those that never come. `rscore` sorts the delays and tries each of them for
`d`, with the share of the samples behind it for the late ones. So it finds the best of all
playout delays, not only of those that are delays of packets, and the least such:
`rscore_reports`. `updateScore_reports` says so of the packets that a `Listener` received.
-/

namespace Mftdma.Traffic

/-- The share of these delays that is above a playout delay. -/
def late (xs : List ℚ) (d : ℚ) : ℚ := xs.countP (d < ·) / xs.length

theorem late_nonneg (xs : List ℚ) (d : ℚ) : 0 ≤ late xs d :=
  div_nonneg (Nat.cast_nonneg _) (Nat.cast_nonneg _)

namespace Voice

variable {log : ℚ → ℚ} {v : Voice} {ss i k : ℕ} {buf : ℕ → ℚ} {d e x : ℚ}

/-- The delays that `rscore` looks at. -/
def samples (v : Voice) : List ℚ := (List.range (min maxDSamp v.rxTot)).map v.ddBuf

/-- The score of the playout delay `d` for packets with these delays, when the share `lost`
never comes. -/
def playoutScore (log : ℚ → ℚ) (delays : List ℚ) (lost d : ℚ) : ℚ :=
  scoreOf log (late delays d + lost) d

/-- No playout delay of which a packet makes use does better than what `w` reports. Unless none
has a positive score, `w` reports one that is the delay of a packet, with its score and its
losses, and all shorter ones do worse; else it reports what `v` did, with the score zero. -/
structure Reports (log : ℚ → ℚ) (delays : List ℚ) (lost : ℚ) (v w : Voice) : Prop where
  optimal : ∀ d, (∃ x ∈ delays, x ≤ d) → playoutScore log delays lost d ≤ w.score
  attained : w.score = 0 ∧ w.delay = v.delay ∧ w.lossPlayout = v.lossPlayout ∨
    w.delay ∈ delays ∧ 0 < w.score ∧ w.score = playoutScore log delays lost w.delay ∧
      w.lossPlayout = late delays w.delay + lost ∧
      ∀ x ∈ delays, x < w.delay → playoutScore log delays lost x < w.score

/-- The share of packets that the pass `i` reckons with. -/
def shareAt (ss : ℕ) (v : Voice) (i : ℕ) : ℚ := ((ss : ℚ) - 1 - i) / ss + v.lossRatio

def scoreAt (log : ℚ → ℚ) (ss : ℕ) (v : Voice) (i : ℕ) : ℚ :=
  scoreOf log (v.shareAt ss i) (v.ddBuf i)

section score

/-- A longer delay does not do better. -/
theorem scoreOf_anti (log : ℚ → ℚ) (e : ℚ) (le : x ≤ d) : scoreOf log e d ≤ scoreOf log e x := by
  have slow : (x * 0.024 + if 177.3 < x then 0.11 * (x - 177.3) else 0) ≤
      d * 0.024 + if 177.3 < d then 0.11 * (d - 177.3) else 0 := by
    split_ifs <;> linarith
  simp only [scoreOf]
  linarith

/-- More loss does worse. -/
theorem scoreOf_lt (increasing : ∀ x y, 0 < x → x < y → log x < log y) {e' : ℚ}
    (sound : 0 < 1 + 18 * e) (less : e < e') (d : ℚ) : scoreOf log e' d < scoreOf log e d := by
  have logs := increasing (1 + 18 * e) (1 + 18 * e') sound (by linarith)
  simp only [scoreOf]
  linarith

end score

section sorted

theorem sortBuf_mono {j : ℕ} (le : i ≤ j) (inside : j < ss) :
    sortBuf ss buf i ≤ sortBuf ss buf j := by
  have length : (((List.range ss).map buf).insertionSort (· ≤ ·)).length = ss := by simp
  have ordered := (List.pairwise_insertionSort (· ≤ ·) ((List.range ss).map buf)).sortedLE
  unfold sortBuf
  rw [List.getElem?_eq_getElem (by omega), List.getElem?_eq_getElem (by omega)]
  exact ordered.monotone_get (a := ⟨i, by omega⟩) (b := ⟨j, by omega⟩) le

/-- The late ones are among those behind `i`. -/
theorem countP_late (inside : i < ss) (before : ∀ j ≤ i, sortBuf ss buf j ≤ d) :
    ((List.range ss).map buf).countP (d < ·) =
      (List.range (ss - (i + 1))).countP fun j => d < sortBuf ss buf (i + 1 + j) := by
  have split : List.range ss =
      List.range (i + 1) ++ (List.range (ss - (i + 1))).map (i + 1 + ·) := by
    rw [← List.range_add]
    congr 1
    omega
  have none : (List.range (i + 1)).countP (fun j => decide (d < sortBuf ss buf j)) = 0 := by
    rw [List.countP_eq_zero]
    intro j mem
    have early := before j (Nat.lt_succ_iff.mp (List.mem_range.mp mem))
    simpa using early
  rw [← (sortBuf_perm ss buf).countP_eq, List.countP_map]
  conv_lhs => rw [split]
  rw [List.countP_append, List.countP_map]
  exact (congrArg (· + _) none).trans (Nat.zero_add _)

theorem cast_behind (inside : i < ss) : ((ss - (i + 1) : ℕ) : ℚ) = (ss : ℚ) - 1 - i := by
  rw [Nat.cast_sub (show i + 1 ≤ ss from inside), Nat.cast_add, Nat.cast_one]
  linarith

/-- No more packets are late than the pass of one of them reckons with. -/
theorem late_le (inside : i < ss) :
    late ((List.range ss).map buf) (sortBuf ss buf i) ≤ ((ss : ℚ) - 1 - i) / ss := by
  have few := countP_late (d := sortBuf ss buf i) inside fun j le => sortBuf_mono le inside
  have most : ((List.range ss).map buf).countP (sortBuf ss buf i < ·) ≤ ss - (i + 1) := by
    rw [few]
    exact List.countP_le_length.trans_eq List.length_range
  rw [late, List.length_map, List.length_range, ← cast_behind inside]
  exact div_le_div_of_nonneg_right (Nat.cast_le.mpr most) (Nat.cast_nonneg ss)

/-- A playout delay of which a packet makes use loses what the pass of the last such packet
reckons with. -/
theorem exists_pass (use : ∃ x ∈ (List.range ss).map buf, x ≤ d) : ∃ i < ss,
    sortBuf ss buf i ≤ d ∧ late ((List.range ss).map buf) d = ((ss : ℚ) - 1 - i) / ss := by
  obtain ⟨x, mem, le⟩ := use
  obtain ⟨j, inside, rfl⟩ := List.mem_map.mp ((sortBuf_perm ss buf).mem_iff.mpr mem)
  have room := Nat.le_sub_one_of_lt (List.mem_range.mp inside)
  have last := Nat.findGreatest_spec (P := fun i => sortBuf ss buf i ≤ d) room le
  have bound := Nat.findGreatest_le (P := fun i => sortBuf ss buf i ≤ d) (ss - 1)
  have after := fun k => Nat.findGreatest_is_greatest (P := fun i => sortBuf ss buf i ≤ d)
    (n := ss - 1) (k := k)
  generalize Nat.findGreatest (fun i => sortBuf ss buf i ≤ d) (ss - 1) = i at last bound after
  have here : i < ss := by
    have some := List.mem_range.mp inside
    omega
  have all := countP_late here fun j le => (sortBuf_mono le here).trans last
  have full : ((List.range (ss - (i + 1))).countP fun j => d < sortBuf ss buf (i + 1 + j)) =
      ss - (i + 1) := by
    refine (List.countP_eq_length.mpr fun j mem => ?_).trans List.length_range
    have short := List.mem_range.mp mem
    exact decide_eq_true (not_le.mp (after (i + 1 + j) (by omega) (by omega)))
  refine ⟨i, here, last, ?_⟩
  rw [late, all, full, List.length_map, List.length_range, cast_behind here]

end sorted

section scan

/-- What the loop has found after `k` passes: the first of the best of them, if one of them
beats the score that it started with. -/
structure Best (log : ℚ → ℚ) (ss : ℕ) (v : Voice) (k : ℕ) (b : Voice) : Prop where
  lossRatio : b.lossRatio = v.lossRatio
  start : v.score ≤ b.score
  passes : ∀ i < k, v.scoreAt log ss i ≤ b.score
  found : (b.score = v.score ∧ b.delay = v.delay ∧ b.lossPlayout = v.lossPlayout) ∨
    ∃ i < k, v.score < b.score ∧ b.score = v.scoreAt log ss i ∧ b.delay = v.ddBuf i ∧
      b.lossPlayout = v.shareAt ss i ∧ ∀ j < i, v.scoreAt log ss j < b.score

theorem best_foldl (log : ℚ → ℚ) (ss : ℕ) (v : Voice) (k : ℕ) :
    Best log ss v k ((List.range k).foldl (tryPlayout log ss) v) := by
  induction k with
  | zero => exact ⟨rfl, le_rfl, by simp, .inl ⟨rfl, rfl, rfl⟩⟩
  | succ k ih =>
      rw [List.range_succ, List.foldl_append, List.foldl_cons, List.foldl_nil]
      have buf := (foldl_tryPlayout log ss (List.range k) v).1
      generalize (List.range k).foldl (tryPlayout log ss) v = b at ih buf
      have score : scoreOf log (((ss : ℚ) - 1 - k) / ss + b.lossRatio) (b.ddBuf k) =
          v.scoreAt log ss k := by
        rw [ih.lossRatio, buf]
        rfl
      simp only [tryPlayout, score]
      split_ifs with better
      · refine ⟨ih.lossRatio, ih.start.trans better.le, fun i hi => ?_, .inr ⟨k, Nat.lt_succ_self k,
          ih.start.trans_lt better, rfl, by rw [buf], by rw [ih.lossRatio]; rfl, fun j hj => ?_⟩⟩
        · obtain old | rfl := Nat.lt_succ_iff_lt_or_eq.mp hi
          · exact (ih.passes i old).trans better.le
          · exact le_rfl
        · exact (ih.passes j hj).trans_lt better
      · refine ⟨ih.lossRatio, ih.start, fun i hi => ?_, ih.found.imp id ?_⟩
        · obtain old | rfl := Nat.lt_succ_iff_lt_or_eq.mp hi
          · exact ih.passes i old
          · exact not_lt.mp better
        · exact fun ⟨i, hi, first⟩ => ⟨i, Nat.lt_succ_of_lt hi, first⟩

end scan

theorem rscore_lossRatio (log : ℚ → ℚ) (v : Voice) : (v.rscore log).lossRatio = v.lossRatio :=
  (best_foldl log (min maxDSamp v.rxTot) _ (min maxDSamp v.rxTot)).lossRatio

/-- One of the passes does as well as a playout delay of which a packet makes use. -/
theorem exists_trial (log : ℚ → ℚ) (v : Voice) (use : ∃ x ∈ v.samples, x ≤ d) :
    ∃ i < min maxDSamp v.rxTot, sortBuf (min maxDSamp v.rxTot) v.ddBuf i ≤ d ∧
      playoutScore log v.samples v.lossRatio d ≤ scoreAt log (min maxDSamp v.rxTot)
        { v with ddBuf := sortBuf (min maxDSamp v.rxTot) v.ddBuf, score := 0 } i := by
  obtain ⟨i, inside, le, share⟩ := exists_pass use
  refine ⟨i, inside, le, ?_⟩
  rw [playoutScore, samples, share]
  exact scoreOf_anti log _ le

theorem rscore_reports (log : ℚ → ℚ) (increasing : ∀ x y, 0 < x → x < y → log x < log y)
    (v : Voice) (sound : 0 < v.rxTot → 0 < 1 + 18 * v.lossRatio) :
    Reports log v.samples v.lossRatio v (v.rscore log) := by
  have best := best_foldl log (min maxDSamp v.rxTot)
    { v with ddBuf := sortBuf (min maxDSamp v.rxTot) v.ddBuf, score := 0 } (min maxDSamp v.rxTot)
  have optimal : ∀ d, (∃ x ∈ v.samples, x ≤ d) →
      playoutScore log v.samples v.lossRatio d ≤ (v.rscore log).score := by
    intro d use
    obtain ⟨i, inside, -, le⟩ := exists_trial log v use
    exact le.trans (best.passes i inside)
  refine ⟨optimal, ?_⟩
  obtain none | ⟨i, inside, positive, score, delay, share, first⟩ := best.found
  · exact .inl none
  · right
    change 0 < (v.rscore log).score at positive
    change (v.rscore log).score = _ at score
    change (v.rscore log).delay = sortBuf (min maxDSamp v.rxTot) v.ddBuf i at delay
    change (v.rscore log).lossPlayout =
      ((min maxDSamp v.rxTot : ℕ) - 1 - i) / (min maxDSamp v.rxTot : ℕ) + v.lossRatio at share
    have mem : (v.rscore log).delay ∈ v.samples := by
      rw [delay, samples, ← (sortBuf_perm _ _).mem_iff]
      exact List.mem_map.mpr ⟨i, List.mem_range.mpr inside, rfl⟩
    have reported : (v.rscore log).score =
        scoreOf log (v.rscore log).lossPlayout (v.rscore log).delay := by
      rw [score, share, delay]
      rfl
    have loses : late v.samples (v.rscore log).delay =
        ((min maxDSamp v.rxTot : ℕ) - 1 - i) / (min maxDSamp v.rxTot : ℕ) := by
      refine le_antisymm (delay ▸ late_le inside) (not_lt.mp fun less => ?_)
      have some := late_nonneg v.samples (v.rscore log).delay
      have sound := sound (by omega)
      have better := scoreOf_lt increasing
        (show 0 < 1 + 18 * (late v.samples (v.rscore log).delay + v.lossRatio) by linarith)
        (add_lt_add_left less v.lossRatio) (v.rscore log).delay
      rw [← share, ← reported] at better
      exact better.not_ge (optimal _ ⟨_, mem, le_rfl⟩)
    refine ⟨mem, positive, ?_, ?_, fun x sample shorter => ?_⟩
    · rw [playoutScore, loses, ← share, ← reported]
    · rw [share, loses]
    · obtain ⟨i', inside', le, bound⟩ := exists_trial log v ⟨x, sample, le_rfl⟩
      have earlier : i' < i := by
        by_contra later
        have sorted : sortBuf (min maxDSamp v.rxTot) v.ddBuf i ≤
            sortBuf (min maxDSamp v.rxTot) v.ddBuf i' := sortBuf_mono (not_lt.mp later) inside'
        exact absurd shorter (not_lt.mpr (delay ▸ sorted.trans le))
      exact bound.trans_lt (first i' earlier)

theorem Reports.perm {xs ys : List ℚ} {lost : ℚ} {w : Voice} (h : Reports log xs lost v w)
    (perm : xs.Perm ys) : Reports log ys lost v w := by
  have same : late xs = late ys := by
    funext d
    rw [late, late, perm.countP_eq, perm.length_eq]
  have score : playoutScore log xs = playoutScore log ys := by
    funext lost d
    rw [playoutScore, playoutScore, same]
  obtain ⟨optimal, attained⟩ := h
  rw [same, score] at attained
  rw [score] at optimal
  simp only [perm.mem_iff] at optimal attained
  exact ⟨optimal, attained⟩

/-- Without delays the losses do not matter. -/
theorem Reports.of_nil {lost lost' : ℚ} {w : Voice} (h : Reports log [] lost v w) :
    Reports log [] lost' v w := by
  refine ⟨fun d use => ?_, .inl ?_⟩
  · obtain ⟨x, mem, -⟩ := use
    cases mem
  · obtain none | ⟨mem, -⟩ := h.attained
    · exact none
    · cases mem

end Voice

namespace Listener

open Execution Voice

variable {log : ℚ → ℚ} {v : Voice} {l l' : Listener} {e : VoiceEvent} {es : List VoiceEvent}

/-- The delays of the packets received latest. -/
def delays (l : Listener) : List ℚ := (l.received.take maxDSamp).map Received.delay

/-- How many packets were sent from the first received to the latest. -/
def sent (l : Listener) : ℤ :=
  (l.received.head?.map Received.seqno).getD 0 - (l.received.getLast?.map Received.seqno).getD 0 + 1

/-- The share of them that was not received. -/
def lost (l : Listener) : ℚ := 1 - l.received.length / l.sent

theorem lost_nonneg (few : (l.received.length : ℤ) ≤ l.sent) : 0 ≤ l.lost := by
  have positive : (0 : ℚ) ≤ l.sent := by
    exact_mod_cast (Int.natCast_nonneg l.received.length).trans few
  exact sub_nonneg.mpr (div_le_one_of_le₀ (by exact_mod_cast few) positive)

/-- The object has the delays and the losses of what it received. -/
structure Current (l : Listener) : Prop where
  counts : l.Counts
  window : l.Window
  lossRatio : l.received ≠ [] → l.voice.lossRatio = l.lost

theorem listen_current (v : Voice) : v.listen.Current :=
  ⟨listen_counts v, .refl _, fun some => absurd rfl some⟩

theorem Counts.lossRatio (counts : l.Counts) {seqno : ℤ} {txTime now : ℚ}
    (step : l.step log (.processData seqno txTime now) = some l') :
    l'.voice.lossRatio = l'.lost := by
  have sent := counts.txEst seqno txTime now
  obtain rfl := Option.some.inj step
  have first : ((⟨seqno, (now - txTime) * 1000⟩ :: l.received).getLast?.map Received.seqno).getD 0 =
      l.firstSeqno seqno := by
    rw [firstSeqno]
    cases l.received with
    | nil => rfl
    | cons r rest => rw [List.getLast?_cons_cons, List.getLast?_eq_some_getLast (by simp)]; rfl
  rw [Voice.processData_lossRatio, sent, counts.total, lost, Listener.sent, first]
  rfl

/-- Every event keeps that while packets replace the oldest. -/
theorem Current.step (h : l.Current) (replaces : l.ReplacesOldest e)
    (step : l.step log e = some l') : l'.Current := by
  refine ⟨h.counts.step step, (window_step_iff h.counts h.window step).mpr replaces, ?_⟩
  cases e with
  | reset =>
      obtain rfl := Option.some.inj step
      exact fun some => absurd rfl some
  | processData seqno txTime now => exact fun _ => h.counts.lossRatio step
  | updateScore =>
      obtain rfl := Option.some.inj step
      exact fun some => (rscore_lossRatio log l.voice).trans (h.lossRatio some)

theorem Current.scores (h : l.Current) (increasing : ∀ x y, 0 < x → x < y → log x < log y)
    (few : (l.received.length : ℤ) ≤ l.sent) :
    Reports log l.delays l.lost l.voice (l.voice.rscore log) := by
  have latest : l.voice.samples.Perm l.delays := by
    refine h.window.trans (List.Perm.of_eq ?_)
    rw [h.counts.total, delays, ← List.take_eq_take_min]
  obtain none | some := eq_or_ne l.received []
  · have reports := (rscore_reports log increasing l.voice fun received => by
      rw [h.counts.total, none] at received
      exact absurd received (lt_irrefl 0)).perm latest
    rw [delays, none, List.take_nil, List.map_nil] at reports ⊢
    exact reports.of_nil
  · rw [← h.lossRatio some]
    refine (rscore_reports log increasing l.voice fun _ => ?_).perm latest
    rw [h.lossRatio some]
    linarith [lost_nonneg few]

/-- A score asked for after a run in which packets replace the oldest reports the best playout
of the packets received latest, unless more were received than sent. -/
theorem updateScore_reports (log : ℚ → ℚ) (increasing : ∀ x y, 0 < x → x < y → log x < log y)
    (v : Voice) (es : List VoiceEvent) (reach : run (Listener.step log) v.listen es = some l)
    (replaces : Along (Listener.step log) ReplacesOldest v.listen es)
    (few : (l.received.length : ℤ) ≤ l.sent) :
    Reports log l.delays l.lost l.voice (l.voice.rscore log) :=
  (run_invariant_along (listen_current v) replaces
    (fun _ _ _ kept replaces step => kept.step replaces step) reach).scores increasing few

/-- A packet that came after a tenth of a second. -/
theorem updateScore_reports_one :
    Reports (fun x => x - 1) [100] 0 (Voice.fresh.reset.processData 7 0 (1 / 10))
      ((Voice.fresh.reset.processData 7 0 (1 / 10)).rscore fun x => x - 1) := by
  have reports := updateScore_reports (fun x => x - 1) (fun x y _ lt => sub_lt_sub_right lt 1)
    Voice.fresh [.processData 7 0 (1 / 10)]
    (l := ⟨Voice.fresh.reset.processData 7 0 (1 / 10), [⟨7, (1 / 10 - 0) * 1000⟩]⟩) rfl
    ⟨replacesOldest_of_lt (by decide), fun _ _ => trivial⟩ (by decide)
  have delays : (([⟨7, (1 / 10 - 0) * 1000⟩] : List Received).take maxDSamp).map Received.delay =
      [100] := by
    norm_num [maxDSamp]
  have lost : Listener.lost ⟨Voice.fresh.reset.processData 7 0 (1 / 10),
      [⟨7, (1 / 10 - 0) * 1000⟩]⟩ = 0 := by
    norm_num [Listener.lost, Listener.sent]
  rwa [Listener.delays, delays, lost] at reports

end Listener

end Mftdma.Traffic
