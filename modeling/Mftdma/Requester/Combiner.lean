import Mathlib.Algebra.Order.Floor.Ring
import Mathlib.Data.Rat.Floor
import Mftdma.Data.Machine
import Mftdma.Data.Window
import Mftdma.Execution.Run

/-!
# `RequesterCombiner`

A station asks for capacity with a rate (RBDC), which follows the input rate of its
queue, and with a volume (VBDC), which is the part of its backlog that the requests
of the last `win_` periods have not asked for yet. The volumes asked for are in the
circular buffer `vec_vol`, and `total_vol` is kept as their sum.

`dorequest` reads the bound Tcl variables afresh at each call, so they come with the
call here; only `win_` belongs to the run.

The counters are `int`. A call keeps to what its sums say as long as they are in the range
of `int`: `Fits`.
-/

namespace Mftdma.Requester

open Execution Machine

/-- What a call of `dorequest` reads: the bound variables, the arrivals counted by the
queue monitor and the length of the queue. -/
structure Request where
  rbdc : Bool
  vbdc : Bool
  avbdc : Bool
  maxRbdc : ℚ
  minRbdc : ℚ
  maxVbdc : ℚ
  alpha : ℚ
  delay : ℚ
  barrivals : ℤ
  byteLength : ℕ

/-- A capacity request as it is given to `mac_->recv`. -/
structure CR where
  slotNum : ℕ
  rate : ℤ
  volume : ℤ
deriving DecidableEq

/-- The members of a requester, and the requests it has made, the latest first. -/
structure RequesterCombiner where
  slotNum : ℕ
  prevIn : ℤ
  bufferCur : ℤ
  inputCur : ℤ
  rateReq : ℚ
  last : ℕ
  totalVol : ℤ
  vecVol : ℕ → ℤ
  made : List CR

/-- The conversion from `double` to `int`. -/
def truncate (x : ℚ) : ℤ := if 0 ≤ x then ⌊x⌋ else ⌈x⌉

/-- `lround`: to the nearest integer, halves away from zero. -/
def lround (x : ℚ) : ℤ := if 0 ≤ x then ⌊x + 1 / 2⌋ else ⌈x - 1 / 2⌉

/-- Volume requests alone, for a queue of this length. -/
def Request.ofVolume (maxVbdc : ℚ) (byteLength : ℕ) : Request where
  rbdc := false
  vbdc := true
  avbdc := false
  maxRbdc := 0
  minRbdc := 0
  maxVbdc := maxVbdc
  alpha := 1
  delay := 1
  barrivals := 0
  byteLength := byteLength

namespace RequesterCombiner

/-- The constructor, and `init` with the `slot_num_` of the MAC. -/
def init (slotNum : ℕ) : RequesterCombiner where
  slotNum := slotNum
  prevIn := 0
  bufferCur := 0
  inputCur := 0
  rateReq := 0
  last := 0
  totalVol := 0
  vecVol _ := 0
  made := []

/-- What `rate` leaves; it returns `lround` of the new `rate_req`. -/
def rate (r : Request) (s : RequesterCombiner) : RequesterCombiner :=
  let inputCur := int32 (r.barrivals - s.prevIn)
  let kbps : ℚ := inputCur * (8 / 1000) / r.delay
  { s with
    inputCur := inputCur
    rateReq := r.alpha * s.rateReq + (1 - r.alpha) * kbps
    prevIn := r.barrivals }

/-- `rate` is called for `rbdc_` only. -/
def estimate (r : Request) (s : RequesterCombiner) : RequesterCombiner :=
  if r.rbdc then rate r s else s

/-- `c_rate`: the rate of the call, between `min_rbdc_` and `max_rbdc_`. -/
def cRate (r : Request) (rate : ℚ) : ℚ :=
  let c := if rate > r.maxRbdc then r.maxRbdc else rate
  if c < r.minRbdc ∧ r.rbdc then r.minRbdc else c

/-- The block of `vbdc_`: the oldest entry of the window gives way to what the queue
holds beyond the previous requests and the input of the period. -/
def ledger (win : ℕ) (s : RequesterCombiner) : RequesterCombiner :=
  let last := (s.last + 1) % win
  let total := int32 (s.totalVol - s.vecVol last)
  if s.bufferCur > int32 (total + s.inputCur) then
    let vol := int32 (int32 (s.bufferCur - total) - s.inputCur)
    { s with
      last := last
      totalVol := int32 (total + vol)
      vecVol := Function.update s.vecVol last vol
      bufferCur := vol }
  else
    { s with
      last := last
      totalVol := total
      vecVol := Function.update s.vecVol last 0
      bufferCur := 0 }

/-- The cap on the volume, after the ledger. -/
def capVolume (r : Request) (s : RequesterCombiner) : RequesterCombiner :=
  if (s.bufferCur : ℚ) > r.maxVbdc then { s with bufferCur := truncate r.maxVbdc } else s

/-- The request that is sent, with `c_rate` and `buffer_cur`. -/
def send (c : ℚ) (s : RequesterCombiner) : RequesterCombiner :=
  { s with made := ⟨s.slotNum, truncate c, s.bufferCur⟩ :: s.made }

def dorequest (win : ℕ) (r : Request) (s : RequesterCombiner) : RequesterCombiner :=
  if r.rbdc || r.vbdc then
    let a := estimate r s
    let c := cRate r (if r.rbdc then int32 (lround a.rateReq) else 0)
    let b := if r.avbdc || r.vbdc then { a with bufferCur := r.byteLength } else a
    send c (capVolume r (if r.vbdc then ledger win b else b))
  else s

end RequesterCombiner

open RequesterCombiner

/-- `dorequest` always returns. -/
def step (win : ℕ) (s : RequesterCombiner) (r : Request) : Option RequesterCombiner :=
  some (dorequest win r s)

/-- The input of the period that a call counts, `input_cur` once `rate` has run. -/
def RequesterCombiner.counted (s : RequesterCombiner) (r : Request) : ℤ :=
  if r.rbdc then int32 (r.barrivals - s.prevIn) else s.inputCur

/-- What is left in the ledger when the oldest entry has gone. -/
def RequesterCombiner.kept (win : ℕ) (s : RequesterCombiner) : ℤ :=
  s.totalVol - s.vecVol ((s.last + 1) % win)

/-- The backlog that the previous requests and the input of the period leave open. -/
def RequesterCombiner.missing (win : ℕ) (s : RequesterCombiner) (r : Request) : ℤ :=
  r.byteLength - s.kept win - s.counted r

/-- The length of the queue is an `int`, and the sums that a call makes of it, of the ledger
and of the input of the period are in the range of `int`. -/
def Fits (win : ℕ) (s : RequesterCombiner) (r : Request) : Prop :=
  (r.byteLength : ℤ) < 2 ^ 31 ∧ s.kept win + s.counted r < 2 ^ 31 ∧
    r.byteLength - s.counted r < 2 ^ 31

instance (win : ℕ) (s : RequesterCombiner) (r : Request) : Decidable (Fits win s r) :=
  inferInstanceAs (Decidable (_ ∧ _ ∧ _))

/-- What `dorequest` does to the ledger, and the request it makes, with `vbdc_` set. -/
structure Requests (win : ℕ) (r : Request) (s t : RequesterCombiner) (vol : ℤ) : Prop where
  entry : vol = max 0 (s.missing win r)
  last : t.last = (s.last + 1) % win
  vecVol : t.vecVol = Function.update s.vecVol ((s.last + 1) % win) vol
  totalVol : t.totalVol = s.kept win + vol
  range : t.totalVol < 2 ^ 31
  inputCur : t.inputCur = s.counted r
  made : ∃ cr, t.made = cr :: s.made ∧
    cr.volume = if (vol : ℚ) > r.maxVbdc then truncate r.maxVbdc else vol

namespace RequesterCombiner

variable {win : ℕ} {r : Request} {s : RequesterCombiner}

@[simp] theorem capVolume_slotNum : (capVolume r s).slotNum = s.slotNum := by
  rw [capVolume]
  split_ifs <;> rfl

@[simp] theorem capVolume_last : (capVolume r s).last = s.last := by
  rw [capVolume]
  split_ifs <;> rfl

@[simp] theorem capVolume_vecVol : (capVolume r s).vecVol = s.vecVol := by
  rw [capVolume]
  split_ifs <;> rfl

@[simp] theorem capVolume_totalVol : (capVolume r s).totalVol = s.totalVol := by
  rw [capVolume]
  split_ifs <;> rfl

@[simp] theorem capVolume_inputCur : (capVolume r s).inputCur = s.inputCur := by
  rw [capVolume]
  split_ifs <;> rfl

@[simp] theorem capVolume_made : (capVolume r s).made = s.made := by
  rw [capVolume]
  split_ifs <;> rfl

theorem capVolume_bufferCur : (capVolume r s).bufferCur =
    if (s.bufferCur : ℚ) > r.maxVbdc then truncate r.maxVbdc else s.bufferCur := by
  rw [capVolume]
  split_ifs <;> rfl

@[simp] theorem ledger_slotNum : (ledger win s).slotNum = s.slotNum := by
  rw [ledger]
  split_ifs <;> rfl

@[simp] theorem ledger_inputCur : (ledger win s).inputCur = s.inputCur := by
  rw [ledger]
  split_ifs <;> rfl

@[simp] theorem ledger_made : (ledger win s).made = s.made := by
  rw [ledger]
  split_ifs <;> rfl

@[simp] theorem ledger_last : (ledger win s).last = (s.last + 1) % win := by
  rw [ledger]
  split_ifs <;> rfl

theorem ledger_vecVol : (ledger win s).vecVol =
    Function.update s.vecVol ((s.last + 1) % win) (ledger win s).bufferCur := by
  rw [ledger]
  split_ifs <;> rfl

/-- In the range of `int`, the ledger is topped up to what the input leaves of the backlog. -/
theorem ledger_eq (win : ℕ) (low : 0 ≤ s.kept win) (high : s.kept win < 2 ^ 31)
    (signed : 0 ≤ s.bufferCur) (len : s.bufferCur < 2 ^ 31)
    (sum : s.kept win + s.inputCur < 2 ^ 31) (rest : s.bufferCur - s.inputCur < 2 ^ 31) :
    (ledger win s).bufferCur = max 0 (s.bufferCur - s.kept win - s.inputCur) ∧
      (ledger win s).totalVol = s.kept win + (ledger win s).bufferCur := by
  have total : int32 (s.totalVol - s.vecVol ((s.last + 1) % win)) = s.kept win :=
    int32_of_lt low high
  have compared : int32 (s.kept win + s.inputCur) = s.kept win + s.inputCur :=
    int32_eq (by omega) sum
  rw [ledger, total, compared]
  split_ifs with more
  · have vol : int32 (int32 (s.bufferCur - s.kept win) - s.inputCur) =
        s.bufferCur - s.kept win - s.inputCur := by
      rw [int32_eq (x := s.bufferCur - s.kept win) (by omega) (by omega)]
      exact int32_of_lt (by omega) (by omega)
    rw [vol]
    refine ⟨(max_eq_right ?_).symm, int32_of_lt ?_ ?_⟩
    · show 0 ≤ s.bufferCur - s.kept win - s.inputCur
      omega
    · omega
    · omega
  · refine ⟨(max_eq_left ?_).symm, (add_zero _).symm⟩
    show s.bufferCur - s.kept win - s.inputCur ≤ 0
    omega

@[simp] theorem estimate_slotNum : (estimate r s).slotNum = s.slotNum := by
  rw [estimate]
  split_ifs <;> rfl

@[simp] theorem estimate_last : (estimate r s).last = s.last := by
  rw [estimate]
  split_ifs <;> rfl

@[simp] theorem estimate_vecVol : (estimate r s).vecVol = s.vecVol := by
  rw [estimate]
  split_ifs <;> rfl

@[simp] theorem estimate_totalVol : (estimate r s).totalVol = s.totalVol := by
  rw [estimate]
  split_ifs <;> rfl

@[simp] theorem estimate_made : (estimate r s).made = s.made := by
  rw [estimate]
  split_ifs <;> rfl

theorem estimate_inputCur : (estimate r s).inputCur = s.counted r := by
  rw [estimate, counted]
  split_ifs <;> rfl

theorem send_made {c : ℚ} : ∃ cr, (send c s).made = cr :: s.made ∧ cr.volume = s.bufferCur :=
  ⟨_, rfl, rfl⟩

/-- A call makes requests for the slot number of its MAC only. -/
theorem dorequest_slotNum (win : ℕ) (r : Request) (s : RequesterCombiner) :
    (dorequest win r s).slotNum = s.slotNum ∧
      ∃ crs, (dorequest win r s).made = crs ++ s.made ∧ ∀ cr ∈ crs, cr.slotNum = s.slotNum := by
  rw [dorequest]
  by_cases asks : (r.rbdc || r.vbdc) = true
  · have same : ∀ a : RequesterCombiner, a.slotNum = s.slotNum → a.made = s.made → ∀ c,
        (send c a).slotNum = s.slotNum ∧
          ∃ crs, (send c a).made = crs ++ s.made ∧ ∀ cr ∈ crs, cr.slotNum = s.slotNum := by
      intro a slotNum made c
      refine ⟨slotNum, [⟨a.slotNum, truncate c, a.bufferCur⟩], ?_, ?_⟩
      · rw [send, made]
        rfl
      · exact List.forall_mem_singleton.mpr slotNum
    rw [if_pos asks]
    apply same
    · split_ifs <;> simp
    · split_ifs <;> simp
  · rw [if_neg asks]
    exact ⟨rfl, [], rfl, fun cr mem => by cases mem⟩

/-- A call with `vbdc_` set. -/
theorem requests_dorequest (vbdc : r.vbdc = true) (low : 0 ≤ s.kept win)
    (high : s.kept win < 2 ^ 31) (fits : Fits win s r) :
    Requests win r s (dorequest win r s) (max 0 (s.missing win r)) := by
  have asks : (r.rbdc || r.vbdc) = true := by rw [vbdc, Bool.or_true]
  have reads : (r.avbdc || r.vbdc) = true := by rw [vbdc, Bool.or_true]
  obtain ⟨len, sum, rest⟩ := fits
  have kept : ({ estimate r s with bufferCur := (r.byteLength : ℤ) } : RequesterCombiner).kept
      win = s.kept win := by
    simp only [RequesterCombiner.kept, estimate_totalVol, estimate_vecVol, estimate_last]
  obtain ⟨vol, total⟩ := ledger_eq win
    (s := { estimate r s with bufferCur := (r.byteLength : ℤ) }) (by omega) (by omega)
    (Int.natCast_nonneg _) len (by rwa [kept, estimate_inputCur]) (by rwa [estimate_inputCur])
  rw [kept] at vol total
  have entry : max 0 ((r.byteLength : ℤ) - s.kept win - (estimate r s).inputCur) =
      max 0 (s.missing win r) := by rw [estimate_inputCur, missing]
  replace vol := vol.trans entry
  rw [dorequest, if_pos asks]
  simp only [if_pos vbdc, if_pos reads]
  constructor
  · rfl
  · exact capVolume_last.trans (ledger_last.trans (by rw [estimate_last]))
  · apply capVolume_vecVol.trans
    rw [ledger_vecVol, vol, estimate_vecVol, estimate_last]
  · apply capVolume_totalVol.trans
    rw [total, vol]
  · apply capVolume_totalVol.trans_lt
    rw [total, vol, missing]
    omega
  · exact capVolume_inputCur.trans (ledger_inputCur.trans estimate_inputCur)
  · obtain ⟨cr, made, volume⟩ := send_made
      (c := cRate r (if r.rbdc then int32 (lround (estimate r s).rateReq) else 0))
      (s := capVolume r (ledger win { estimate r s with bufferCur := r.byteLength }))
    rw [capVolume_made, ledger_made, estimate_made] at made
    rw [capVolume_bufferCur, vol] at volume
    exact ⟨cr, made, volume⟩

end RequesterCombiner

end Mftdma.Requester
