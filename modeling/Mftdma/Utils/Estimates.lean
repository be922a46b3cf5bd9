import Mathlib.Algebra.BigOperators.Group.List.Basic
import Mathlib.Algebra.Order.Field.Basic
import Mathlib.Algebra.Order.Floor.Ring
import Mathlib.Data.Rat.Floor
import Mathlib.Tactic.FieldSimp
import Mathlib.Tactic.Linarith
import Mftdma.Data.Machine
import Mftdma.Utils.Fullrun

/-!
# The estimates of `fullrun`

`save_data` keeps for each column of the output two running sums or, for a percentile, the
search tree of its samples, and `update_stats` computes an estimate and its relative error
from them. `Setup.report` says what these are in terms of the samples themselves: their mean
and the standard error of the mean, or the middle of two order statistics and half their
distance. `Column.update` computes it.

Values of `double` are exact here, those of `int` wrap; `sqrt`, `exp` and the normal
percentile are parameters. What is no finite number, such as a quotient by zero or the root
of a negative number, is `none`.
-/

namespace Mftdma.Utils

open Machine

/-- What `config_fullrun` has read, `q_perc`, and the functions of the C library; `exp` has no
finite value at numbers that are too large for it. -/
structure Setup where
  type : ℕ → ℤ
  numCycles : ℕ
  minRuns : ℕ
  refresh : ℕ
  maxErr : ℚ
  perc : ℚ
  qPerc : ℚ
  sqrt : ℚ → ℚ
  exp : ℚ → Option ℚ
  minRuns_pos : 1 ≤ minRuns
  refresh_pos : 1 ≤ refresh
  perc_nonneg : 0 ≤ perc
  perc_le_one : perc ≤ 1

/-- `stats[i]` and `data_sort[i]`. An error that is no number is `none`. -/
structure Column where
  sumTotal : ℚ
  sumSquares : ℚ
  estimate : ℚ
  estError : Option ℚ
  dataSort : DataRun ℚ

/-- `reset_stats` on a column. -/
def Column.reset : Column where
  sumTotal := 0
  sumSquares := 0
  estimate := 0
  estError := some 0
  dataSort := .null

/-- The part of `save_data` for a column. -/
def Column.save (type : ℤ) (cValue : ℚ) (col : Column) : Column :=
  if type = 0 then
    { col with
      sumTotal := col.sumTotal + cValue
      sumSquares := col.sumSquares + cValue * cValue }
  else if type = 1 then { col with dataSort := col.dataSort.insertSort cValue }
  else col

/-- The conversion from `double` to `int`. -/
def truncate (x : ℚ) : ℤ := if 0 ≤ x then ⌊x⌋ else ⌈x⌉

namespace Setup

variable (cfg : Setup)

/-- `perc_var` -/
def percVar : ℚ := cfg.perc * (1 - cfg.perc)

/-- `perc_min` -/
def percMin : ℚ := min cfg.perc (1 - cfg.perc)

/-- `t_distr`. The two products are of `int`, and may wrap to zero. -/
def tDistr (z : ℚ) (n : ℕ) : Option ℚ :=
  if n < 2 then some 0
  else if int32 (n * n) = 0 ∨ int32 ((n - 1) * (n - 1)) = 0 then none
  else
    let g : ℚ := (n - 15 / 10 - 1 / 10 / n + 5825 / 10000 / int32 (n * n)) /
      int32 ((n - 1) * (n - 1))
    (cfg.exp (z * z * g)).bind fun e => if n * e < n then none else some (cfg.sqrt (n * e - n))

/-- `stder/fmean` for a mean and a variance of `n` samples. -/
def meanError (n : ℕ) (mean var : ℚ) : Option ℚ :=
  let stder :=
    if 0 < var then (cfg.tDistr cfg.qPerc (n - 1)).map (· * cfg.sqrt (var / n)) else some 0
  if |mean| = 0 then some 0 else stder.map (· / |mean|)

/-- `i_min` -/
def iMin (n : ℕ) : ℤ :=
  truncate (n * cfg.perc - cfg.qPerc * cfg.sqrt (n * cfg.percVar) - 15 / 10)

/-- `i_max` -/
def iMax (n : ℕ) : ℤ :=
  truncate (n * cfg.perc + cfg.qPerc * cfg.sqrt (n * cfg.percVar) + 5 / 10)

end Setup

/-- `(m_max - m_min)/(2*fabs(m_mid))`, which is no number for a middle of zero. -/
def rangeError (mMin mMax : ℚ) : Option ℚ :=
  let mMid := (mMax + mMin) / 2
  if mMid = 0 then none else some ((mMax - mMin) / (2 * |mMid|))

/-- The part of `update_stats` for a column; `none` follows a NULL pointer. The flag says
whether the column counts as converged. -/
def Column.update (cfg : Setup) (type : ℤ) (n : ℕ) (col : Column) : Option (Column × Bool) :=
  if type = 0 then
    let mean := col.sumTotal / n
    let var := (col.sumSquares - n * mean * mean) / (n - 1)
    let err := cfg.meanError n mean var
    some ({ col with estimate := mean, estError := err }, err.any (· < cfg.maxErr))
  else if type = 1 then
    if 5 < n * cfg.percMin then do
      let mMin ← col.dataSort.getList n (cfg.iMin n)
      let mMax ← col.dataSort.getList n (cfg.iMax n)
      let err := rangeError mMin mMax
      some ({ col with estimate := (mMax + mMin) / 2, estError := err },
        err.any (· < cfg.maxErr))
    else some (col, false)
  else some (col, false)

/-- What is kept for all the columns. -/
structure Stats where
  numSamples : ℕ
  column : ℕ → Column

def Stats.reset : Stats := ⟨0, fun _ => .reset⟩

/-- The loop of `save_data` over the columns, and the count of the sample. -/
def Stats.save (cfg : Setup) (cols : ℕ) (smp : ℕ → ℚ) (s : Stats) : Stats where
  numSamples := s.numSamples + 1
  column c := if c < cols then (s.column c).save (cfg.type c) (smp c) else s.column c

/-- `update_stats`, with the number of columns that converged. -/
def Stats.update (cfg : Setup) : ℕ → Stats → Option (Stats × ℕ)
  | 0, s => some (s, 0)
  | c + 1, s => do
      let (s, converged) ← Stats.update cfg c s
      let (col, ok) ← (s.column c).update cfg (cfg.type c) s.numSamples
      some ({ s with column := Function.update s.column c col },
        if ok then converged + 1 else converged)

/-- The mean of the samples. -/
def mean (xs : List ℚ) : ℚ := xs.sum / xs.length

/-- Their variance, without bias. -/
def variance (xs : List ℚ) : ℚ := (xs.map fun x => (x - mean xs) ^ 2).sum / (xs.length - 1)

/-- The sample of an index among the samples in order. -/
def orderStatistic (xs : List ℚ) (k : ℤ) : ℚ :=
  (xs.insertionSort (· ≤ ·)).getD (DataRun.clamp xs.length k) 0

/-- The estimate and the error for a column with these samples, where there is one. -/
def Setup.report (cfg : Setup) (type : ℤ) (xs : List ℚ) : Option (ℚ × Option ℚ) :=
  if type = 0 then some (mean xs, cfg.meanError xs.length (mean xs) (variance xs))
  else if type = 1 ∧ 5 < xs.length * cfg.percMin then
    let mMin := orderStatistic xs (cfg.iMin xs.length)
    let mMax := orderStatistic xs (cfg.iMax xs.length)
    some ((mMax + mMin) / 2, rangeError mMin mMax)
  else none

/-- The column of these samples meets the bound on the error. -/
def Setup.Meets (cfg : Setup) (type : ℤ) (xs : List ℚ) : Prop :=
  ∃ est err, cfg.report type xs = some (est, some err) ∧ err < cfg.maxErr

/-- `save_data` looks at the estimates when this many samples are saved. -/
def Setup.Checks (cfg : Setup) (n : ℕ) : Prop := n % cfg.refresh = 0 ∧ cfg.minRuns < n

instance (cfg : Setup) : DecidablePred cfg.Checks := fun n =>
  inferInstanceAs (Decidable (n % cfg.refresh = 0 ∧ cfg.minRuns < n))

/-- The last count up to this one at which the estimates were computed, or 0. -/
def Setup.lastCheck (cfg : Setup) (n : ℕ) : ℕ := Nat.findGreatest cfg.Checks n

/-- The estimate and the error that a column with these samples shows. -/
def Setup.shown (cfg : Setup) (type : ℤ) (xs : List ℚ) : ℚ × Option ℚ :=
  if cfg.lastCheck xs.length = 0 then (0, some 0)
  else (cfg.report type (xs.take (cfg.lastCheck xs.length))).getD (0, some 0)

/-- Without the mutex: `save_data` of a sample, and whether it clears `end_run`. -/
def Stats.saveData (cfg : Setup) (cols : ℕ) (smp : ℕ → ℚ) (s : Stats) : Option (Stats × Bool) :=
  let s := s.save cfg cols smp
  if cfg.Checks s.numSamples then do
    let (s, converged) ← s.update cfg cols
    some (s, converged == cols || cfg.numCycles < s.numSamples)
  else some (s, false)

/-- The samples of a column. -/
def columnOf (c : ℕ) (runs : List (ℕ → ℚ)) : List ℚ := runs.map fun smp => smp c

/-- The rule that ends the runs: at a check, all estimates are good or there are enough
samples. -/
def Setup.Stops (cfg : Setup) (cols : ℕ) (runs : List (ℕ → ℚ)) : Prop :=
  cfg.Checks runs.length ∧
    ((∀ c < cols, cfg.Meets (cfg.type c) (columnOf c runs)) ∨ cfg.numCycles < runs.length)

/-- A column that has saved these samples. -/
structure Column.Holds (type : ℤ) (xs : List ℚ) (col : Column) : Prop where
  sums : type = 0 → col.sumTotal = xs.sum ∧ col.sumSquares = (xs.map fun x => x * x).sum
  tree : type = 1 → col.dataSort.Holds xs

/-- All columns have saved these samples, and show the last estimates of them. -/
structure Stats.Holds (cfg : Setup) (cols : ℕ) (runs : List (ℕ → ℚ)) (s : Stats) : Prop where
  number : s.numSamples = runs.length
  held : ∀ c < cols, (s.column c).Holds (cfg.type c) (columnOf c runs)
  shown : ∀ c < cols, ((s.column c).estimate, (s.column c).estError) =
    cfg.shown (cfg.type c) (columnOf c runs)

section samples

variable {xs : List ℚ}

/-- The sums determine the squares of the distances from the mean. -/
theorem sum_squares_sub (m : ℚ) (xs : List ℚ) : (xs.map fun x => (x - m) ^ 2).sum =
    (xs.map fun x => x * x).sum - 2 * m * xs.sum + xs.length * m ^ 2 := by
  induction xs with
  | nil => simp
  | cons x xs ih =>
      simp only [List.map_cons, List.sum_cons, List.length_cons, ih]
      push_cast
      ring

theorem variance_eq (filled : xs ≠ []) : variance xs =
    ((xs.map fun x => x * x).sum - xs.length * mean xs * mean xs) / (xs.length - 1) := by
  have length : (xs.length : ℚ) ≠ 0 :=
    Nat.cast_ne_zero.mpr (List.length_pos_of_ne_nil filled).ne'
  have total : xs.sum = xs.length * mean xs := by
    rw [mean]
    field_simp
  rw [variance, sum_squares_sub, total]
  ring

theorem orderStatistic_eq (filled : xs ≠ []) (k : ℤ) :
    (xs.insertionSort (· ≤ ·))[DataRun.clamp xs.length k]? = some (orderStatistic xs k) := by
  have inside : DataRun.clamp xs.length k < (xs.insertionSort (· ≤ ·)).length := by
    rw [List.length_insertionSort]
    exact DataRun.clamp_lt (List.length_pos_of_ne_nil filled) k
  rw [orderStatistic, List.getD_eq_getElem?_getD, List.getElem?_eq_getElem inside, Option.getD_some]

end samples

namespace Column

variable {cfg : Setup} {type : ℤ} {xs : List ℚ} {col : Column}

theorem holds_reset (type : ℤ) : reset.Holds type [] where
  sums _ := ⟨rfl, rfl⟩
  tree _ := ⟨trivial, .nil, .refl _⟩

theorem Holds.save (h : col.Holds type xs) (x : ℚ) : (col.save type x).Holds type (xs ++ [x]) where
  sums kind := by
    obtain ⟨total, squares⟩ := h.sums kind
    simp [Column.save, kind, total, squares]
  tree kind := by
    have other : type ≠ 0 := by omega
    rw [Column.save, if_neg other, if_pos kind]
    exact (h.tree kind).insertSort x

@[simp] theorem save_estimate (type : ℤ) (x : ℚ) (col : Column) :
    (col.save type x).estimate = col.estimate := by
  unfold save
  split_ifs <;> rfl

@[simp] theorem save_estError (type : ℤ) (x : ℚ) (col : Column) :
    (col.save type x).estError = col.estError := by
  unfold save
  split_ifs <;> rfl

/-- `update_stats` finds the report on the samples, and a NULL pointer nowhere. -/
theorem Holds.update (h : col.Holds type xs) (cfg : Setup) (filled : xs ≠ []) :
    ∃ ok, (ok = true ↔ cfg.Meets type xs) ∧ col.update cfg type xs.length =
      some ((cfg.report type xs).elim col fun r => { col with estimate := r.1, estError := r.2 },
        ok) := by
  by_cases kind : type = 0
  · obtain ⟨total, squares⟩ := h.sums kind
    refine ⟨_, ?_, by
      rw [Column.update, if_pos kind, total, squares]
      simp only [Setup.report, if_pos kind, Option.elim_some, variance_eq filled, mean]
      rfl⟩
    simp only [Setup.Meets, Setup.report, if_pos kind, Option.some.injEq, Prod.mk.injEq,
      Option.any_eq_true, decide_eq_true_iff, variance_eq filled, mean]
    constructor
    · rintro ⟨err, found, small⟩
      exact ⟨_, err, ⟨rfl, found⟩, small⟩
    · rintro ⟨_, err, ⟨rfl, found⟩, small⟩
      exact ⟨err, found, small⟩
  · by_cases perc : type = 1 ∧ 5 < xs.length * cfg.percMin
    · obtain ⟨kind', enough⟩ := perc
      have ranked := (h.tree kind').ranked filled
      refine ⟨(rangeError (orderStatistic xs (cfg.iMin xs.length))
        (orderStatistic xs (cfg.iMax xs.length))).any (· < cfg.maxErr), ?_, ?_⟩
      · simp only [Setup.Meets, Setup.report, if_neg kind, if_pos (And.intro kind' enough),
          Option.some.injEq, Prod.mk.injEq, Option.any_eq_true, decide_eq_true_iff]
        constructor
        · rintro ⟨err, found, small⟩
          exact ⟨_, err, ⟨rfl, found⟩, small⟩
        · rintro ⟨_, err, ⟨rfl, found⟩, small⟩
          exact ⟨err, found, small⟩
      · rw [Column.update, if_neg kind, if_pos kind', if_pos enough, ranked.ranked,
          ranked.ranked, orderStatistic_eq filled, orderStatistic_eq filled]
        simp only [Setup.report, if_neg kind, if_pos (And.intro kind' enough), Option.elim_some]
        rfl
    · refine ⟨false, ?_, ?_⟩
      · simp [Setup.Meets, Setup.report, kind, perc]
      · have nothing : col.update cfg type xs.length = some (col, false) := by
          rw [Column.update, if_neg kind]
          split_ifs with kind' enough
          · exact absurd ⟨kind', enough⟩ perc
          · rfl
          · rfl
        rw [nothing, Setup.report, if_neg kind, if_neg perc, Option.elim_none]

end Column

namespace Setup

variable {cfg : Setup} {type : ℤ} {n : ℕ} {xs : List ℚ}

theorem percMin_nonneg (cfg : Setup) : 0 ≤ cfg.percMin :=
  le_min cfg.perc_nonneg (sub_nonneg.mpr cfg.perc_le_one)

/-- Fewer samples have no report where more have none. -/
theorem report_take_eq_none (h : cfg.report type xs = none) (m : ℕ) :
    cfg.report type (xs.take m) = none := by
  unfold report at h ⊢
  split_ifs at h with kind enough
  rw [if_neg kind, if_neg]
  rintro ⟨kind', enough'⟩
  refine enough ⟨kind', enough'.trans_le ?_⟩
  have fewer : ((xs.take m).length : ℚ) ≤ xs.length := by
    exact_mod_cast List.length_take_le' m xs
  exact mul_le_mul_of_nonneg_right fewer cfg.percMin_nonneg

theorem lastCheck_of_checks (h : cfg.Checks n) : cfg.lastCheck n = n := by
  cases n with
  | zero => rfl
  | succ n => exact Nat.findGreatest_eq h

theorem lastCheck_succ_of_not (h : ¬ cfg.Checks (n + 1)) :
    cfg.lastCheck (n + 1) = cfg.lastCheck n :=
  Nat.findGreatest_of_not h

theorem lastCheck_le (cfg : Setup) (n : ℕ) : cfg.lastCheck n ≤ n := Nat.findGreatest_le n

theorem pos_of_checks (h : cfg.Checks n) : 0 < n := Nat.zero_lt_of_lt h.2

theorem shown_snoc_of_not (h : ¬ cfg.Checks (xs.length + 1)) (x : ℚ) :
    cfg.shown type (xs ++ [x]) = cfg.shown type xs := by
  rw [shown, shown, List.length_append, List.length_singleton, lastCheck_succ_of_not h,
    List.take_append_of_le_length (cfg.lastCheck_le _)]

/-- At a check the report replaces what is shown, if there is one. -/
theorem shown_of_checks (h : cfg.Checks (xs.length + 1)) (x : ℚ) :
    cfg.shown type (xs ++ [x]) = (cfg.report type (xs ++ [x])).getD (cfg.shown type xs) := by
  have all : cfg.lastCheck (xs ++ [x]).length = (xs ++ [x]).length := by
    rw [List.length_append, List.length_singleton]
    exact lastCheck_of_checks h
  have some : (xs ++ [x]).length ≠ 0 := by simp
  rw [shown, all, if_neg some, List.take_length]
  cases found : cfg.report type (xs ++ [x]) with
  | some r => rfl
  | none =>
      have before : cfg.report type (xs.take (cfg.lastCheck xs.length)) = none := by
        have taken := report_take_eq_none found (cfg.lastCheck xs.length)
        rwa [List.take_append_of_le_length (cfg.lastCheck_le _)] at taken
      rw [Option.getD_none, Option.getD_none, shown, before, Option.getD_none, ite_self]

end Setup

namespace Stats

variable {cfg : Setup} {cols : ℕ} {runs : List (ℕ → ℚ)} {s : Stats}

theorem holds_reset (cfg : Setup) (cols : ℕ) : reset.Holds cfg cols [] where
  number := rfl
  held c _ := Column.holds_reset (cfg.type c)
  shown _ _ := rfl

/-- The loop of `update_stats` over the columns. -/
theorem exists_update (cfg : Setup) (xs : ℕ → List ℚ) (cols : ℕ)
    (held : ∀ c < cols, (s.column c).Holds (cfg.type c) (xs c) ∧ xs c ≠ [] ∧
      (xs c).length = s.numSamples) :
    ∃ t converged, s.update cfg cols = some (t, converged) ∧ t.numSamples = s.numSamples ∧
      (∀ c, t.column c = if c < cols then (cfg.report (cfg.type c) (xs c)).elim (s.column c)
        fun r => { s.column c with estimate := r.1, estError := r.2 } else s.column c) ∧
      converged ≤ cols ∧
      (converged = cols ↔ ∀ c < cols, cfg.Meets (cfg.type c) (xs c)) := by
  induction cols with
  | zero => exact ⟨s, 0, rfl, rfl, by simp, le_rfl, by simp⟩
  | succ k ih =>
      obtain ⟨t, converged, result, number, columns, bound, all⟩ :=
        ih fun c hc => held c (Nat.lt_succ_of_lt hc)
      obtain ⟨holds, filled, length⟩ := held k (Nat.lt_succ_self k)
      obtain ⟨ok, meets, here⟩ := holds.update cfg filled
      have same : t.column k = s.column k := by rw [columns, if_neg (Nat.lt_irrefl k)]
      refine ⟨{ t with column := Function.update t.column k ((cfg.report (cfg.type k) (xs k)).elim
          (s.column k) fun r => { s.column k with estimate := r.1, estError := r.2 }) },
        if ok then converged + 1 else converged, ?_, number, ?_, ?_, ?_⟩
      · rw [update, result]
        simp only [Option.bind_eq_bind, Option.bind_some, number, ← length, same, here]
      · intro c
        by_cases last : c = k
        · subst last
          simp
        · have step : c < k + 1 ↔ c < k := by omega
          simp only [Function.update_of_ne last, columns, step]
      · split_ifs <;> omega
      · constructor
        · intro count c hc
          have good : ok = true := by
            by_contra bad
            rw [if_neg bad] at count
            omega
          rw [if_pos good] at count
          obtain before | rfl := Nat.lt_succ_iff_lt_or_eq.mp hc
          · exact all.mp (by omega) c before
          · exact meets.mp good
        · intro every
          have before := all.mpr fun c hc => every c (Nat.lt_succ_of_lt hc)
          rw [if_pos (meets.mpr (every k (Nat.lt_succ_self k))), before]

/-- A call of `save_data` comes to its end, keeps what is known of the samples, and clears
`end_run` by the rule. -/
theorem Holds.saveData (h : s.Holds cfg cols runs) (smp : ℕ → ℚ) :
    ∃ t stop, s.saveData cfg cols smp = some (t, stop) ∧ t.Holds cfg cols (runs ++ [smp]) ∧
      (stop = true ↔ cfg.Stops cols (runs ++ [smp])) := by
  have snoc : ∀ c, columnOf c (runs ++ [smp]) = columnOf c runs ++ [smp c] :=
    fun c => List.map_append
  have length : ∀ c, (columnOf c runs).length = runs.length := fun c => List.length_map _
  have saved : ∀ c < cols, ((s.save cfg cols smp).column c).Holds (cfg.type c)
      (columnOf c (runs ++ [smp])) := fun c hc => by
    rw [snoc, save]
    simp only [if_pos hc]
    exact (h.held c hc).save (smp c)
  have before : ∀ c < cols, (((s.save cfg cols smp).column c).estimate,
      ((s.save cfg cols smp).column c).estError) = cfg.shown (cfg.type c) (columnOf c runs) :=
    fun c hc => by
      rw [save]
      simp only [if_pos hc, Column.save_estimate, Column.save_estError]
      exact h.shown c hc
  have number : (s.save cfg cols smp).numSamples = (runs ++ [smp]).length := by
    rw [List.length_append, List.length_singleton, ← h.number]
    rfl
  unfold Stats.saveData
  dsimp only
  by_cases check : cfg.Checks (runs ++ [smp]).length
  · obtain ⟨t, converged, result, same, columns, bound, all⟩ :=
      exists_update cfg (s := s.save cfg cols smp)
        (fun c => columnOf c (runs ++ [smp])) cols fun c hc =>
          ⟨saved c hc, by simp [columnOf], by rw [number, columnOf, List.length_map]⟩
    rw [number, if_pos check, result]
    refine ⟨t, _, rfl, ⟨same.trans number, fun c hc => ?_, fun c hc => ?_⟩, ?_⟩
    · rw [columns, if_pos hc]
      cases cfg.report (cfg.type c) (columnOf c (runs ++ [smp])) with
      | none => exact saved c hc
      | some r => exact ⟨(saved c hc).sums, (saved c hc).tree⟩
    · have here : cfg.Checks ((columnOf c runs).length + 1) := by
        rwa [length, ← List.length_singleton (a := smp), ← List.length_append]
      rw [columns, if_pos hc, snoc, Setup.shown_of_checks here, ← before c hc, ← snoc]
      cases cfg.report (cfg.type c) (columnOf c (runs ++ [smp])) with
      | none => rfl
      | some r => rfl
    · rw [Bool.or_eq_true, beq_iff_eq, decide_eq_true_iff, all, same.trans number]
      exact ⟨fun rule => ⟨check, rule⟩, fun rule => rule.2⟩
  · rw [number, if_neg check]
    refine ⟨_, _, rfl, ⟨number, saved, fun c hc => ?_⟩, ?_⟩
    · have here : ¬ cfg.Checks ((columnOf c runs).length + 1) := by
        rwa [length, ← List.length_singleton (a := smp), ← List.length_append]
      rw [before c hc, snoc, Setup.shown_snoc_of_not here]
    · exact iff_of_false Bool.false_ne_true fun rule => check rule.1

end Stats

end Mftdma.Utils
