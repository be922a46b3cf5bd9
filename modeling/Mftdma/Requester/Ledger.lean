import Mftdma.Requester.Combiner

/-!
# The ledger of the volume requests

`total_vol` is the window of the volumes asked for: each call with `vbdc_` set tops it
up to the backlog that the input of the period leaves. So it covers the backlog, and
it never has more in it than the largest of the backlogs it was topped up to.

The cap on the volume comes after the entry is made, so the ledger counts what was
meant to be asked for. It counts what was asked for as long as the cap takes nothing
away.

A terminal that keeps a backlog asks for something at least once in each window:
`Marks.silence_call`.
-/

namespace Mftdma.Requester

open Execution Window RequesterCombiner

variable {win : ℕ} {r : Request} {s t : RequesterCombiner} {vol : ℤ} {vs bs : List ℤ}

/-- `vec_vol` holds the window of the entries `vs`, and `total_vol` is their sum. -/
structure Ledger (win : ℕ) (s : RequesterCombiner) (vs : List ℤ) : Prop where
  ring : Ring win s.vecVol s.last vs
  sum : s.totalVol = total win vs
  range : s.totalVol < 2 ^ 31
  signed : ∀ v ∈ vs, 0 ≤ v
  entries : ∀ i, 0 ≤ s.vecVol i

theorem ledger_init (pos : 0 < win) (slotNum : ℕ) : Ledger win (init slotNum) [] where
  ring := Ring.init pos
  sum := total_nil.symm
  range := show (0 : ℤ) < 2 ^ 31 by decide
  signed _ hv := by cases hv
  entries _ := le_rfl

namespace Ledger

theorem pos (h : Ledger win s vs) : 0 < win := Nat.zero_lt_of_lt h.ring.inside

/-- What is left in the ledger is asked for by the other entries. -/
theorem kept_eq (h : Ledger win s vs) : s.kept win = total (win - 1) vs := by
  rw [RequesterCombiner.kept, h.sum, h.ring.leaving, total_sub_leaving h.pos]

theorem kept_nonneg (h : Ledger win s vs) : 0 ≤ s.kept win := by
  rw [h.kept_eq]
  exact total_mono (Nat.zero_le _) h.signed

theorem kept_lt (h : Ledger win s vs) : s.kept win < 2 ^ 31 :=
  (sub_le_self _ (h.entries _)).trans_lt h.range

/-- A call in the range of `int`. -/
theorem requests (h : Ledger win s vs) (vbdc : r.vbdc = true) (fits : Fits win s r) :
    Requests win r s (dorequest win r s) (max 0 (s.missing win r)) :=
  requests_dorequest vbdc h.kept_nonneg h.kept_lt fits

/-- A call tops the ledger up to what the input of the period leaves of the backlog. -/
theorem topUp (h : Ledger win s vs) :
    max 0 (s.missing win r) = Window.topUp win (r.byteLength - s.counted r) vs := by
  rw [missing, h.kept_eq, Window.topUp]
  congr 1
  omega

theorem push (h : Ledger win s vs) (asks : Requests win r s t vol) :
    Ledger win t (vol :: vs) where
  ring := by
    rw [asks.vecVol, asks.last]
    exact h.ring.push vol
  sum := by
    rw [asks.totalVol, RequesterCombiner.kept, h.sum, h.ring.leaving, total_push h.pos]
  range := asks.range
  signed v hv := by
    cases hv with
    | head =>
        rw [asks.entry]
        exact le_max_left ..
    | tail _ hv => exact h.signed v hv
  entries i := by
    rw [asks.vecVol, Function.update_apply]
    split_ifs
    · rw [asks.entry]
      exact le_max_left ..
    · exact h.entries i

/-- The ledger and the input of the period cover the backlog. -/
theorem covers (h : Ledger win s vs) (asks : Requests win r s t vol) :
    (r.byteLength : ℤ) ≤ t.totalVol + t.inputCur := by
  rw [(h.push asks).sum, asks.inputCur, asks.entry, h.topUp, total_topUp h.pos]
  omega

end Ledger

/-- A call of `dorequest` with `vbdc_` set whose `input_cur` is not negative, and whose sums
are in the range of `int`. -/
def AsksVolume (win : ℕ) (s : RequesterCombiner) (r : Request) : Prop :=
  r.vbdc = true ∧ 0 ≤ s.counted r ∧ Fits win s r

instance (win : ℕ) (s : RequesterCombiner) (r : Request) : Decidable (AsksVolume win s r) :=
  inferInstanceAs (Decidable (_ ∧ _ ∧ _))

/-- The backlogs that the calls have found, the latest first. -/
def backlogs (es : List Request) : List ℤ := es.reverse.map fun r => r.byteLength

theorem backlogs_snoc (es : List Request) (r : Request) :
    backlogs (es ++ [r]) = (r.byteLength : ℤ) :: backlogs es := by
  simp [backlogs]

/-- The ledger of a run: what the entries are, and what they were topped up to. -/
def Tracks (win : ℕ) (es : List Request) (s : RequesterCombiner) : Prop :=
  ∃ vs, Ledger win s vs ∧ Modest win vs (backlogs es)

theorem Tracks.call {es : List Request} (h : Tracks win es s) (call : AsksVolume win s r) :
    Tracks win (es ++ [r]) (dorequest win r s) ∧
      (r.byteLength : ℤ) ≤ (dorequest win r s).totalVol + (dorequest win r s).inputCur := by
  obtain ⟨vs, ledger, modest⟩ := h
  obtain ⟨vbdc, input, fits⟩ := call
  have asks := ledger.requests vbdc fits
  refine ⟨⟨_, ledger.push asks, ?_⟩, ledger.covers asks⟩
  rw [backlogs_snoc, ledger.topUp]
  exact modest.topUp ledger.signed (by omega)

theorem run_tracks {es : List Request} (pos : 0 < win) {slotNum : ℕ}
    (calls : Along (step win) (AsksVolume win) (init slotNum) es)
    (reach : run (step win) (init slotNum) es = some t) : Tracks win es t := by
  have start : Tracks win [] (init slotNum) := ⟨[], ledger_init pos slotNum, modest_nil win⟩
  apply run_history_along start calls _ reach
  intro past a e b tracks call stepped
  obtain rfl := Option.some.inj stepped
  exact (tracks.call call).1

/-- No more is in the ledger than one of the backlogs of its window. -/
theorem Tracks.le_backlog {es : List Request} (h : Tracks win (es ++ [r]) t) (pos : 0 < win) :
    ∃ q ∈ (r :: es.reverse).take win, t.totalVol ≤ q.byteLength := by
  obtain ⟨vs, ledger, modest⟩ := h
  have window : (backlogs (es ++ [r])).take win =
      ((r :: es.reverse).take win).map fun q => (q.byteLength : ℤ) := by
    rw [backlogs, List.reverse_append, List.map_take]
    rfl
  obtain ⟨m, rfl⟩ := Nat.exists_eq_succ_of_ne_zero pos.ne'
  have le := modest _ le_rfl
  rw [window] at le
  have some : ((r :: es.reverse).take (m + 1)).map (fun q => (q.byteLength : ℤ)) ≠ [] := by
    rw [List.take_succ_cons]
    exact List.cons_ne_nil _ _
  have signed : ∀ b ∈ ((r :: es.reverse).take (m + 1)).map fun q => (q.byteLength : ℤ), 0 ≤ b := by
    intro b hb
    obtain ⟨q, -, rfl⟩ := List.mem_map.mp hb
    exact Int.natCast_nonneg _
  obtain ⟨b, hb, most⟩ := exists_peak_le some signed
  obtain ⟨q, hq, rfl⟩ := List.mem_map.mp hb
  exact ⟨q, hq, ledger.sum.le.trans (le.trans most)⟩

/-- After every call: the entries are not negative, `total_vol` is their sum over the
window, it covers the backlog together with the input of the period, and it is at most
the largest backlog of the last `win_` calls. -/
theorem vbdc_window (pos : 1 ≤ win) {slotNum : ℕ} {es : List Request}
    (calls : Along (step win) (AsksVolume win) (init slotNum) (es ++ [r]))
    (reach : run (step win) (init slotNum) (es ++ [r]) = some t) :
    (∀ i, 0 ≤ t.vecVol i) ∧ t.totalVol = ∑ i ∈ Finset.range win, t.vecVol i ∧
      (r.byteLength : ℤ) ≤ t.totalVol + t.inputCur ∧
      ∃ q ∈ (r :: es.reverse).take win, t.totalVol ≤ q.byteLength := by
  obtain ⟨a, before, stepped⟩ := run_snoc_eq_some.mp reach
  obtain ⟨earlier, last⟩ := along_snoc_iff.mp calls
  obtain rfl := Option.some.inj stepped
  obtain ⟨tracks, covers⟩ := (run_tracks pos earlier before).call (last a before)
  have most := tracks.le_backlog pos
  obtain ⟨vs, ledger, -⟩ := tracks
  exact ⟨ledger.entries, by rw [ledger.ring.sum_eq, ledger.sum], covers, most⟩

/-- The entries for the first two of these backlogs expire. -/
theorem vbdc_window_expiring :
    ∃ t, run (step 2) (init 1) [.ofVolume 1000 500, .ofVolume 1000 700, .ofVolume 1000 300,
        .ofVolume 1000 900] = some t ∧
      (900 : ℤ) ≤ t.totalVol + t.inputCur ∧
      ∃ q ∈ [Request.ofVolume 1000 900, .ofVolume 1000 300], t.totalVol ≤ q.byteLength := by
  have calls : Along (step 2) (AsksVolume 2) (init 1)
      ([.ofVolume 1000 500, .ofVolume 1000 700, .ofVolume 1000 300] ++
        [.ofVolume 1000 900]) := by decide +kernel
  exact ⟨_, rfl, (vbdc_window (by decide) calls rfl).2.2⟩

/-- With 1000 bytes in the ledger and an input of `2^31 - 1` bytes the sum that is compared
wraps, and so does `total_vol`. -/
theorem not_vbdc_window :
    ∃ t es, es = [Request.ofVolume 1000 1000,
        { Request.ofVolume 1000 0 with rbdc := true, barrivals := 2 ^ 31 - 1 }] ∧
      Along (step 2) (fun s r => r.vbdc = true ∧ 0 ≤ s.counted r) (init 1) es ∧
      run (step 2) (init 1) es = some t ∧ t.totalVol = -2147483647 ∧
      t.totalVol ≠ ∑ i ∈ Finset.range 2, t.vecVol i :=
  ⟨_, _, rfl, by decide +kernel, rfl, by decide +kernel, by decide +kernel⟩

/-- `total_vol` is the sum of the volumes that the last `win` requests carried. -/
def MatchesSent (win : ℕ) (s : RequesterCombiner) : Prop :=
  s.totalVol = total win (s.made.map CR.volume)

instance (win : ℕ) (s : RequesterCombiner) : Decidable (MatchesSent win s) :=
  inferInstanceAs (Decidable (_ = _))

/-- The sums are in the range of `int`, and the cap leaves the missing volume as it is. -/
def BelowCap (win : ℕ) (s : RequesterCombiner) (r : Request) : Prop :=
  Fits win s r ∧ (s.missing win r : ℚ) ≤ r.maxVbdc

instance (win : ℕ) (s : RequesterCombiner) (r : Request) : Decidable (BelowCap win s r) :=
  inferInstanceAs (Decidable (_ ∧ _))

theorem carried_eq_iff {cap : ℚ} (signed : 0 ≤ cap) (vol : ℤ) :
    (if (vol : ℚ) > cap then truncate cap else vol) = vol ↔ (vol : ℚ) ≤ cap := by
  split_ifs with more
  · have less : ((truncate cap : ℤ) : ℚ) ≤ cap := by
      rw [truncate, if_pos signed]
      exact Int.floor_le cap
    refine ⟨fun same => ?_, fun le => absurd more (not_lt_of_ge le)⟩
    rwa [same] at less
  · exact ⟨fun _ => le_of_not_gt more, fun _ => rfl⟩

theorem belowCap_iff (fits : Fits win s r) (signed : 0 ≤ r.maxVbdc) :
    BelowCap win s r ↔ ((max 0 (s.missing win r) : ℤ) : ℚ) ≤ r.maxVbdc := by
  rw [BelowCap, and_iff_right fits, Int.cast_max, Int.cast_zero, max_le_iff]
  exact (and_iff_right signed).symm

/-- From a ledger of what was sent, a call leads to one exactly when it stays below the cap. -/
theorem Ledger.matchesSent_step (h : Ledger win s (s.made.map CR.volume))
    (vbdc : r.vbdc = true) (signed : 0 ≤ r.maxVbdc) (fits : Fits win s r) :
    (MatchesSent win (dorequest win r s) ↔ BelowCap win s r) ∧
      (BelowCap win s r →
        Ledger win (dorequest win r s) ((dorequest win r s).made.map CR.volume)) := by
  have asks := h.requests vbdc fits
  obtain ⟨cr, made, carried⟩ := asks.made
  rw [belowCap_iff fits signed, ← carried_eq_iff signed, ← carried, MatchesSent, made,
    List.map_cons, (h.push asks).sum, total_push h.pos, total_push h.pos]
  refine ⟨⟨fun same => (add_left_cancel same).symm, fun same => by rw [same]⟩, fun same => ?_⟩
  rw [same]
  exact h.push asks

/-- As long as no missing volume is above the cap, `total_vol` stays the sum of the volumes
sent in the window. In the range of `int`, it stays so no longer. -/
theorem matchesSent_iff (pos : 1 ≤ win) {slotNum : ℕ} {es : List Request}
    (calls : ∀ r ∈ es, r.vbdc = true ∧ 0 ≤ r.maxVbdc)
    (reach : run (step win) (init slotNum) es = some t) :
    (Along (step win) (BelowCap win) (init slotNum) es →
        Throughout (step win) (MatchesSent win) (init slotNum) es) ∧
      (Along (step win) (Fits win) (init slotNum) es →
        Throughout (step win) (MatchesSent win) (init slotNum) es →
        Along (step win) (BelowCap win) (init slotNum) es) := by
  have exactly (fits : Along (step win) (Fits win) (init slotNum) es) :
      Throughout (step win) (MatchesSent win) (init slotNum) es ↔
        Along (step win) (BelowCap win) (init slotNum) es := by
    have allowed : Along (step win) (fun s r => (r.vbdc = true ∧ 0 ≤ r.maxVbdc) ∧ Fits win s r)
        (init slotNum) es := (along_of_forall fun r hr _ => calls r hr).and fits
    apply throughout_iff_along_of (J := fun s => Ledger win s (s.made.map CR.volume))
      (ledger_init pos slotNum) allowed (fun _ h => h.sum)
    · rintro a r b ledger ⟨⟨vbdc, signed⟩, fits⟩ stepped below
      obtain rfl := Option.some.inj stepped
      exact (ledger.matchesSent_step vbdc signed fits).2 below
    · rintro a r b ledger ⟨⟨vbdc, signed⟩, fits⟩ stepped same
      obtain rfl := Option.some.inj stepped
      exact (ledger.matchesSent_step vbdc signed fits).1.mp same
    · exact reach
  exact ⟨fun below => (exactly (below.mono fun _ _ h => h.1)).mpr below,
    fun fits => (exactly fits).mp⟩

/-- The entries for the first two of these backlogs expire. -/
theorem matchesSent_iff_expiring :
    Throughout (step 2) (MatchesSent 2) (init 1) [.ofVolume 1000 500, .ofVolume 1000 700,
      .ofVolume 1000 300, .ofVolume 1000 900] :=
  (matchesSent_iff (by decide) (by simp [Request.ofVolume]) rfl).1 (by decide +kernel)

/-- Of a backlog of 250 bytes a request carries 100, and while the ledger counts all of
it, the next request carries nothing. -/
theorem not_matchesSent :
    ∃ t u, run (step 2) (init 1) [.ofVolume 100 250] = some t ∧ ¬ MatchesSent 2 t ∧
      run (step 2) t [.ofVolume 100 250] = some u ∧ u.made.map CR.volume = [0, 100] :=
  ⟨_, _, rfl, by decide +kernel, rfl, by decide +kernel⟩

section silence

/-- The volumes of the requests made, the latest first. -/
def RequesterCombiner.volumes (s : RequesterCombiner) : List ℤ := s.made.map CR.volume

/-- The entries of the ledger are zero where the requests were. -/
def Marks (win : ℕ) (s : RequesterCombiner) : Prop :=
  ∃ vs, Ledger win s vs ∧
    (vs.map fun v => decide (v ≤ 0)) = s.volumes.map fun v => decide (v ≤ 0)

/-- A cap of at least one byte leaves something of each request. -/
theorem carried_pos_iff {cap : ℚ} (one : 1 ≤ cap) (vol : ℤ) :
    0 < (if (vol : ℚ) > cap then truncate cap else vol) ↔ 0 < vol := by
  split_ifs with more
  · have some : 0 < truncate cap := by
      rw [truncate, if_pos (zero_le_one.trans one)]
      exact Int.floor_pos.mpr one
    have large : 0 < vol := by exact_mod_cast (zero_lt_one.trans_le one).trans more
    exact iff_of_true some large
  · rfl

/-- A call keeps the marks. If it finds a backlog, then it asks for something, or it is one more
call since the last that did. -/
theorem Marks.call (h : Marks win s) (vbdc : r.vbdc = true) (one : 1 ≤ r.maxVbdc)
    (fits : Fits win s r) :
    Marks win (dorequest win r s) ∧ (s.counted r < r.byteLength → ∃ cr,
      (dorequest win r s).made = cr :: s.made ∧
        (silence (win - 1) s.volumes : ℤ) + 1 ≤
          silence (win - 1) (dorequest win r s).volumes + win * cr.volume) := by
  obtain ⟨vs, ledger, signs⟩ := h
  have asks := ledger.requests vbdc fits
  obtain ⟨cr, made, volume⟩ := asks.made
  have carried := carried_pos_iff one (max 0 (s.missing win r))
  rw [← volume] at carried
  have volumes : (dorequest win r s).volumes = cr.volume :: s.volumes := by
    rw [RequesterCombiner.volumes, made]
    rfl
  have same : ((max 0 (s.missing win r) :: vs).map fun v => decide (v ≤ 0)) =
      (dorequest win r s).volumes.map fun v => decide (v ≤ 0) := by
    have sign : max 0 (s.missing win r) ≤ 0 ↔ cr.volume ≤ 0 := by omega
    rw [volumes, List.map_cons, List.map_cons, signs, decide_eq_decide.mpr sign]
  refine ⟨⟨_, ledger.push asks, same⟩, fun backlog => ⟨cr, made, ?_⟩⟩
  have signed : 0 ≤ cr.volume := by
    rw [volume]
    split_ifs
    · rw [truncate, if_pos (zero_le_one.trans one)]
      exact Int.floor_nonneg.mpr (zero_le_one.trans one)
    · exact le_max_left ..
  have silent := silence_topUp (h := vs) ledger.pos (sub_pos.mpr backlog)
  rw [← ledger.topUp, silence_congr same, silence_congr signs] at silent
  have least : (min 1 (max 0 (s.missing win r)).toNat : ℤ) ≤ cr.volume := by omega
  have times := mul_le_mul_of_nonneg_left least (Int.natCast_nonneg win)
  zify at silent
  linarith

end silence

end Mftdma.Requester
