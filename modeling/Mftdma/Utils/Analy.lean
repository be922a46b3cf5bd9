import Mathlib.Algebra.Order.Floor.Semiring
import Mathlib.Algebra.Order.Field.Basic
import Mathlib.Data.Fintype.Card
import Mathlib.Data.Rat.Floor
import Mathlib.Tactic.Linarith
import Mftdma.Data.Double
import Mftdma.Data.Machine
import Mftdma.Data.Probing
import Mftdma.Execution.Run

/-!
# Queue traces in `analy`

The main loop of `analy` reads a queue trace record by record. It keeps the packets that
wait in `backlog`, a table of `DIM` entries that three searches go round from one moving
index, and counts them in `queuesizePKT`.

The search for a free entry and the search for a waiting packet have no bound, so a record
may hang the loop; `step` is then `none`. The search of a drop gives up after a round, but
does not ask whether the entry that it finds is busy. The loop that writes samples adds the
sampling interval to a `double`, which stops growing at some time, and hangs if the record
is later. `queuesizePKT` is a `double` that counts, and therefore exact.
-/

namespace Mftdma.Utils

open Cyclic Execution Machine Probing

/-- `DIM` -/
def analyDim : ℕ := 100000

theorem analyDim_pos : 0 < analyDim := by decide

/-- The field `code` of a record: `+`, `-`, `d`, or one that the loop does not look at. -/
inductive Code where
  | enque
  | deque
  | drop
  | other
deriving DecidableEq

/-- The fields of a trace record that the loop reads. -/
structure Record where
  code : Code
  time : ℚ
  size : ℤ
  flowID : ℤ
  pktID : ℤ

/-- `struct packet`, an entry of `backlog`. -/
structure Entry where
  ts : ℚ
  pktID : ℤ
  busy : Bool

/-- A line of the output; the delay is printed in intervals in which packets left. -/
structure Sample where
  timestamp : ℚ
  inputBIT : ℤ
  inputPKT : ℤ
  outputBIT : ℤ
  outputPKT : ℤ
  queuesizeBIT : ℚ
  queuesizePKT : ℤ
  dropBIT : ℤ
  dropPKT : ℤ
  delay : Option ℚ

/-- The arguments `samp` and `flowid`. A sampling interval that is not positive is refused. -/
structure Options where
  smp : ℚ
  smp_step : IsStep smp
  fid : Option ℤ

/-- The variables of `main`, with `n` entries in `backlog`, and the lines written. -/
structure Analy (n : ℕ) where
  timestamp : ℚ
  inputBIT : ℤ
  inputPKT : ℤ
  outputBIT : ℤ
  outputPKT : ℤ
  queuesizeBIT : ℚ
  queuesizePKT : ℤ
  dropBIT : ℤ
  dropPKT : ℤ
  delay : ℚ
  backlog : Fin n → Entry
  i : Fin n
  lines : List Sample

namespace Analy

variable {n : ℕ}

/-- The variables before the first record. The code does not initialise `delay` and, but for
`busy`, the entries of `backlog`. -/
def start (pos : 0 < n) (delay : ℚ) (memory : Fin n → Entry) : Analy n where
  timestamp := 0
  inputBIT := 0
  inputPKT := 0
  outputBIT := 0
  outputPKT := 0
  queuesizeBIT := 0
  queuesizePKT := 0
  dropBIT := 0
  dropPKT := 0
  delay := delay
  backlog j := { memory j with busy := false }
  i := ⟨0, pos⟩
  lines := []

/-- One pass of the loop that writes the samples. -/
def sample (smp : ℚ) (s : Analy n) : Analy n :=
  { s with
    timestamp := double (s.timestamp + smp)
    lines := s.lines ++ [{
      timestamp := double (s.timestamp + smp)
      inputBIT := s.inputBIT
      inputPKT := s.inputPKT
      outputBIT := s.outputBIT
      outputPKT := s.outputPKT
      queuesizeBIT := s.queuesizeBIT
      queuesizePKT := s.queuesizePKT
      dropBIT := s.dropBIT
      dropPKT := s.dropPKT
      delay := if s.outputPKT = 0 then none else some (double (s.delay / s.outputPKT)) }]
    inputBIT := 0
    inputPKT := 0
    outputBIT := 0
    outputPKT := 0
    dropBIT := 0
    dropPKT := 0
    delay := 0 }

/-- `while (timestamp < time-smp ) { … }` -/
def sampling (smp time : ℚ) : Loop (Analy n) where
  guard s := s.timestamp < double (time - smp)
  body s := s.sample smp

/-- There are at most as many passes still to be made as doubles in between. -/
def samplesLeft (smp time : ℚ) (s : Analy n) : ℕ :=
  ⌈(double (time - smp) - s.timestamp) / smallest⌉₊

/-- `while(backlog[i].busy == 1)` -/
def findFree (s : Analy n) : Loop (Fin n) := seek fun j => !(s.backlog j).busy

/-- `while(backlog[i].busy == 0 || backlog[i].pktID != pktID)` -/
def findWaiting (s : Analy n) (pktID : ℤ) : Loop (Fin n) :=
  seek fun j => (s.backlog j).busy && (s.backlog j).pktID == pktID

/-- `while(backlog[i].pktID != pktID && i!=ic)`, with the `ic` from before the loop. -/
def findDropped (s : Analy n) (pktID : ℤ) : Loop (Fin n) :=
  seek fun j => (s.backlog j).pktID == pktID || j == advance s.i (n - 1)

/-- The branch of `+`, once it has found an entry. -/
def enque (s : Analy n) (r : Record) (j : Fin n) : Analy n :=
  { s with
    inputBIT := int32 (s.inputBIT + int32 (r.size * 8))
    inputPKT := int32 (s.inputPKT + 1)
    queuesizeBIT := double (s.queuesizeBIT + int32 (r.size * 8))
    queuesizePKT := s.queuesizePKT + 1
    backlog := Function.update s.backlog j ⟨r.time, r.pktID, true⟩
    i := j }

/-- The branch of `-`, once it has found an entry. -/
def deque (s : Analy n) (r : Record) (j : Fin n) : Analy n :=
  { s with
    delay := double (s.delay + double (r.time - (s.backlog j).ts))
    backlog := Function.update s.backlog j { s.backlog j with busy := false }
    outputBIT := int32 (s.outputBIT + int32 (r.size * 8))
    outputPKT := int32 (s.outputPKT + 1)
    queuesizeBIT := double (s.queuesizeBIT - int32 (r.size * 8))
    queuesizePKT := s.queuesizePKT - 1
    i := j }

/-- The branch of `d`, once its search is over. -/
def drop (s : Analy n) (r : Record) (j : Fin n) : Analy n :=
  if (s.backlog j).pktID = r.pktID then
    { s with
      dropBIT := int32 (s.dropBIT + int32 (r.size * 8))
      dropPKT := int32 (s.dropPKT + 1)
      backlog := Function.update s.backlog j { s.backlog j with busy := false }
      queuesizeBIT := double (s.queuesizeBIT - int32 (r.size * 8))
      queuesizePKT := s.queuesizePKT - 1
      i := j }
  else
    { s with
      dropBIT := int32 (s.dropBIT + int32 (r.size * 8))
      dropPKT := int32 (s.dropPKT + 1)
      i := j }

/-- The branches on `code`; `none` when the search does not end. -/
def branch (s : Analy n) (r : Record) : Option (Analy n) :=
  match r.code with
  | .enque => (s.findFree.exec n s.i).map (s.enque r)
  | .deque => ((s.findWaiting r.pktID).exec n s.i).map (s.deque r)
  | .drop => ((s.findDropped r.pktID).exec n s.i).map (s.drop r)
  | .other => some s

/-- The `flowid` argument lets the record pass. -/
def Selects (o : Options) (r : Record) : Prop := ∀ f ∈ o.fid, r.flowID = f

instance (o : Options) (r : Record) : Decidable (Selects o r) :=
  inferInstanceAs (Decidable (∀ f ∈ o.fid, r.flowID = f))

/-- One pass of the main loop. The loops run for as many passes as they need if they end. -/
def step (o : Options) (s : Analy n) (r : Record) : Option (Analy n) :=
  if Selects o r then
    ((sampling o.smp r.time).exec (s.samplesLeft o.smp r.time) s).bind fun s => s.branch r
  else some s

/-! ## Which loops end -/

/-- The timestamp is a sum of sampling intervals, as far as these can be added. -/
structure Ticking (o : Options) (s : Analy n) : Prop where
  isDouble : IsDouble s.timestamp
  nonneg : 0 ≤ s.timestamp
  le_stall : s.timestamp ≤ stall o.smp

theorem start_ticking (o : Options) (pos : 0 < n) (delay : ℚ) (memory : Fin n → Entry) :
    (start pos delay memory).Ticking o :=
  ⟨isDouble_zero, le_rfl, (two_zpow_pos _).le⟩

theorem Ticking.sample {o : Options} {s : Analy n} (h : s.Ticking o) :
    (s.sample o.smp).Ticking o where
  isDouble := isDouble_double _
  nonneg := by
    have sum : 0 ≤ s.timestamp + o.smp := add_nonneg h.nonneg o.smp_step.pos.le
    exact double_zero.ge.trans (double_mono sum)
  le_stall := o.smp_step.double_add_le_stall h.isDouble h.le_stall

theorem Ticking.sampled {o : Options} {s m : Analy n} {time : ℚ} (h : s.Ticking o)
    (returned : (sampling o.smp time).Returns s m) : m.Ticking o :=
  (Loop.returns_iff.mp returned).1.invariant h fun _ _ ticking _ => ticking.sample

/-- Samples come to an end only before the time at which the sum stalls. -/
theorem Ticking.le_of_returns {o : Options} {s m : Analy n} {time : ℚ} (h : s.Ticking o)
    (returned : (sampling o.smp time).Returns s m) : double (time - o.smp) ≤ stall o.smp := by
  obtain ⟨-, exit⟩ := Loop.returns_iff.mp returned
  exact (not_lt.mp (of_decide_eq_false exit)).trans (h.sampled returned).le_stall

/-- Before it they do, since each sum is larger than the one before. -/
theorem sampling_ends_iff {o : Options} {s : Analy n} (time : ℚ) (h : s.Ticking o) :
    ((sampling o.smp time).exec (s.samplesLeft o.smp time) s).isSome = true ↔
      double (time - o.smp) ≤ stall o.smp := by
  constructor
  · intro ends
    obtain ⟨m, found⟩ := Option.isSome_iff_exists.mp ends
    exact h.le_of_returns ⟨_, found⟩
  · intro early
    obtain ⟨m, found⟩ := Loop.exists_exec_of_rank (l := sampling o.smp time) (I := Ticking o)
      (samplesLeft o.smp time) h (fun _ ticking _ => ticking.sample) fun a ticking guard => by
        have below : a.timestamp < double (time - o.smp) := of_decide_eq_true guard
        have grows := o.smp_step.lt_double_add ticking.nonneg (below.trans_le early)
        have next := ticking.isDouble.add_smallest_le (isDouble_double _) grows
        have less : (double (time - o.smp) - double (a.timestamp + o.smp)) / smallest ≤
            (double (time - o.smp) - a.timestamp) / smallest - 1 := by
          rw [le_sub_iff_add_le, ← div_self smallest_pos.ne', ← add_div]
          exact div_le_div_of_nonneg_right (by linarith) smallest_pos.le
        have left : 0 < (double (time - o.smp) - a.timestamp) / smallest :=
          div_pos (sub_pos.mpr below) smallest_pos
        show ⌈(double (time - o.smp) - double (a.timestamp + o.smp)) / smallest⌉₊ <
          ⌈(double (time - o.smp) - a.timestamp) / smallest⌉₊
        apply (Nat.ceil_mono less).trans_lt
        rw [Nat.ceil_sub_one]
        exact Nat.sub_one_lt (Nat.ceil_pos.mpr left).ne'
    rw [found]
    rfl

/-- The entries and the index are the same, and as many packets are counted. -/
structure SameQueue (s m : Analy n) : Prop where
  backlog : m.backlog = s.backlog
  i : m.i = s.i
  queuesizePKT : m.queuesizePKT = s.queuesizePKT

/-- Samples leave the queue as it is. -/
theorem sampling_sameQueue {smp time : ℚ} {passes : ℕ} {s m : Analy n}
    (h : (sampling smp time).exec passes s = some m) : SameQueue s m := by
  obtain ⟨visited, -⟩ := Loop.returns_iff.mp ⟨passes, h⟩
  exact visited.invariant (I := SameQueue s) ⟨rfl, rfl, rfl⟩
    fun _ _ kept _ => ⟨kept.backlog, kept.i, kept.queuesizePKT⟩

/-- A record that passes is counted into the samples and then branched on. -/
theorem branch_of_step {o : Options} {r : Record} {s t : Analy n} (selected : Selects o r)
    (step : s.step o r = some t) : ∃ m, SameQueue s m ∧ m.branch r = some t := by
  rw [Analy.step, if_pos selected] at step
  obtain ⟨m, found, branched⟩ := Option.bind_eq_some_iff.mp step
  exact ⟨m, sampling_sameQueue found, branched⟩

theorem branch_timestamp {r : Record} {s t : Analy n} (branched : s.branch r = some t) :
    t.timestamp = s.timestamp := by
  rw [branch] at branched
  cases code : r.code with
  | enque =>
      rw [code] at branched
      obtain ⟨j, -, rfl⟩ := Option.map_eq_some_iff.mp branched
      rfl
  | deque =>
      rw [code] at branched
      obtain ⟨j, -, rfl⟩ := Option.map_eq_some_iff.mp branched
      rfl
  | drop =>
      rw [code] at branched
      obtain ⟨j, -, rfl⟩ := Option.map_eq_some_iff.mp branched
      rw [drop]
      split_ifs <;> rfl
  | other =>
      rw [code] at branched
      rw [Option.some.inj branched]

theorem Ticking.step {o : Options} {r : Record} {s t : Analy n} (h : s.Ticking o)
    (step : s.step o r = some t) : t.Ticking o := by
  by_cases selected : Selects o r
  · rw [Analy.step, if_pos selected] at step
    obtain ⟨m, found, branched⟩ := Option.bind_eq_some_iff.mp step
    obtain ⟨isDouble, nonneg, le⟩ := h.sampled ⟨_, found⟩
    rw [← branch_timestamp branched] at isDouble nonneg le
    exact ⟨isDouble, nonneg, le⟩
  · rw [Analy.step, if_neg selected] at step
    obtain rfl := Option.some.inj step
    exact h

/-- The search of a drop is bounded. -/
theorem findDropped_ends (s : Analy n) (pktID : ℤ) :
    ((s.findDropped pktID).exec n s.i).isSome = true :=
  exec_seek_isSome_iff.mpr ⟨advance s.i (n - 1), by simp⟩

/-- The record comes before the time at which the sum of sampling intervals stalls, and finds
what it needs: a packet that comes a free entry, and a packet that leaves an entry where it
waits. -/
def Ends (o : Options) (s : Analy n) (r : Record) : Prop :=
  Selects o r → double (r.time - o.smp) ≤ stall o.smp ∧
    (r.code = .enque → ∃ j, (s.backlog j).busy = false) ∧
    (r.code = .deque → ∃ j, (s.backlog j).busy = true ∧ (s.backlog j).pktID = r.pktID)

theorem branch_isSome_iff (s : Analy n) (r : Record) : (s.branch r).isSome = true ↔
    (r.code = .enque → ∃ j, (s.backlog j).busy = false) ∧
      (r.code = .deque → ∃ j, (s.backlog j).busy = true ∧ (s.backlog j).pktID = r.pktID) := by
  rw [branch]
  cases code : r.code with
  | enque =>
      rw [Option.isSome_map, findFree, exec_seek_isSome_iff]
      simp
  | deque =>
      rw [Option.isSome_map, findWaiting, exec_seek_isSome_iff]
      simp
  | drop =>
      rw [Option.isSome_map]
      exact iff_of_true (s.findDropped_ends r.pktID) (by simp)
  | other => simp

theorem step_isSome_iff {o : Options} {s : Analy n} (r : Record) (h : s.Ticking o) :
    (s.step o r).isSome = true ↔ Ends o s r := by
  rw [Analy.step, Ends]
  split_ifs with selected
  · rw [forall_prop_of_true selected, ← sampling_ends_iff r.time h]
    cases found : (sampling o.smp r.time).exec (s.samplesLeft o.smp r.time) s with
    | none => simp
    | some m =>
        rw [Option.bind_some, branch_isSome_iff, (sampling_sameQueue found).backlog]
        simp
  · exact iff_of_true rfl fun h => absurd h selected

theorem findFree_terminates_iff (s : Analy n) :
    s.findFree.Terminates s.i ↔ ∃ j, (s.backlog j).busy = false := by
  rw [findFree, seek_terminates_iff, exec_seek_isSome_iff]
  simp

theorem findWaiting_terminates_iff (s : Analy n) (pktID : ℤ) :
    (s.findWaiting pktID).Terminates s.i ↔
      ∃ j, (s.backlog j).busy = true ∧ (s.backlog j).pktID = pktID := by
  rw [findWaiting, seek_terminates_iff, exec_seek_isSome_iff]
  simp

/-- `step` is `none` where one of the loops runs for ever, and only there. -/
theorem step_eq_none_iff {o : Options} {s : Analy n} (r : Record) (h : s.Ticking o) :
    s.step o r = none ↔ Selects o r ∧ (¬ (sampling o.smp r.time).Terminates s ∨
      ∃ m, (sampling o.smp r.time).Returns s m ∧
        (r.code = .enque ∧ ¬ m.findFree.Terminates m.i ∨
          r.code = .deque ∧ ¬ (m.findWaiting r.pktID).Terminates m.i)) := by
  rw [← Option.not_isSome_iff_eq_none, step_isSome_iff r h, Ends, Classical.not_imp]
  refine and_congr_right fun _ => ?_
  rw [not_and_or]
  by_cases early : double (r.time - o.smp) ≤ stall o.smp
  · obtain ⟨m, found⟩ := Option.isSome_iff_exists.mp ((sampling_ends_iff r.time h).mpr early)
    have ends : (sampling o.smp r.time).Terminates s := ⟨m, _, found⟩
    have hangs : ∀ m, SameQueue s m → (¬ ((r.code = .enque → ∃ j, (s.backlog j).busy = false) ∧
        (r.code = .deque → ∃ j, (s.backlog j).busy = true ∧ (s.backlog j).pktID = r.pktID)) ↔
        (r.code = .enque ∧ ¬ m.findFree.Terminates m.i ∨
          r.code = .deque ∧ ¬ (m.findWaiting r.pktID).Terminates m.i)) := fun m same => by
      rw [findFree_terminates_iff, findWaiting_terminates_iff, same.backlog, not_and_or,
        Classical.not_imp, Classical.not_imp]
    rw [or_iff_right (not_not.mpr early), or_iff_right (not_not.mpr ends)]
    constructor
    · intro stuck
      exact ⟨m, ⟨_, found⟩, (hangs m (sampling_sameQueue found)).mp stuck⟩
    · rintro ⟨m, ⟨passes, found⟩, stuck⟩
      exact (hangs m (sampling_sameQueue found)).mpr stuck
  · refine iff_of_true (.inl early) (.inl ?_)
    rintro ⟨m, returned⟩
    exact early (h.le_of_returns returned)

/-- The main loop comes to the end of the records exactly when none of them is too late for
the sum of sampling intervals, and each finds what it needs. -/
theorem run_ends_iff (o : Options) (delay : ℚ) (memory : Fin analyDim → Entry)
    (rs : List Record) :
    (run (step o) (start analyDim_pos delay memory) rs).isSome = true ↔
      Along (step o) (Ends o) (start analyDim_pos delay memory) rs :=
  run_isSome_iff_along_of (start_ticking o analyDim_pos delay memory)
    (fun _ _ _ ticking step => ticking.step step) fun _ r ticking => step_isSome_iff r ticking

/-! ## The packets counted -/

/-- The busy entries. -/
def busyEntries (s : Analy n) : Finset (Fin n) := Finset.univ.filter fun j => (s.backlog j).busy

/-- As many packets are counted as entries are busy. -/
def Counted (s : Analy n) : Prop := s.queuesizePKT = s.busyEntries.card

/-- The entry at which the search of a drop finds the packet, if it finds it, is busy: it is
the first one from `i` on that has the number of the packet. -/
def DropsWaiting (o : Options) (s : Analy n) (r : Record) : Prop :=
  Selects o r → r.code = .drop → ∀ j, (s.backlog j).pktID = r.pktID →
    (∀ k, gap s.i k < gap s.i j → (s.backlog k).pktID ≠ r.pktID) → (s.backlog j).busy = true

variable {o : Options} {s t m : Analy n} {r : Record} {j : Fin n}

theorem mem_busyEntries : j ∈ s.busyEntries ↔ (s.backlog j).busy = true := by
  simp [busyEntries]

/-- Entries change one at a time. -/
theorem busyEntries_update (e : Entry) (h : t.backlog = Function.update s.backlog j e) :
    t.busyEntries = if e.busy then insert j s.busyEntries else s.busyEntries.erase j := by
  ext k
  rw [mem_busyEntries, h]
  by_cases same : k = j
  · subst same
    cases busy : e.busy <;> simp [busy]
  · cases e.busy <;> simp [same, mem_busyEntries]

/-- A packet that comes. -/
theorem busyEntries_enque (free : (s.backlog j).busy = false) :
    (s.enque r j).busyEntries.card = s.busyEntries.card + 1 := by
  rw [busyEntries_update (s := s) ⟨r.time, r.pktID, true⟩ rfl, if_pos rfl]
  exact Finset.card_insert_of_notMem (by simp [mem_busyEntries, free])

/-- An entry that is given back. -/
theorem card_busyEntries_erase (h : t.backlog =
      Function.update s.backlog j { s.backlog j with busy := false }) :
    (t.busyEntries.card : ℤ) =
      if (s.backlog j).busy = true then (s.busyEntries.card : ℤ) - 1 else s.busyEntries.card := by
  rw [busyEntries_update _ h, if_neg Bool.false_ne_true]
  split_ifs with busy
  · have mem : j ∈ s.busyEntries := mem_busyEntries.mpr busy
    rw [← Finset.card_erase_add_one mem]
    push_cast
    omega
  · rw [Finset.erase_eq_of_notMem (mem_busyEntries.not.mpr busy)]

/-- The search of a drop ends at the first entry that has the number of the packet. -/
theorem findDropped_eq_some (found : (s.findDropped r.pktID).exec n s.i = some j) :
    (∀ k, gap s.i k < gap s.i j → (s.backlog k).pktID ≠ r.pktID) ∧
      ∀ q, (s.backlog q).pktID = r.pktID → (∀ k, gap s.i k < gap s.i q →
        (s.backlog k).pktID ≠ r.pktID) → q = j := by
  obtain ⟨stop, before⟩ := exec_seek_eq_some_iff.mp found
  have earlier : ∀ k, gap s.i k < gap s.i j → (s.backlog k).pktID ≠ r.pktID := by
    intro k hk same
    have := before k hk
    simp [same] at this
  refine ⟨earlier, fun q own first => ?_⟩
  obtain less | same | more := lt_trichotomy (gap s.i q) (gap s.i j)
  · exact absurd own (earlier q less)
  · rw [← advance_gap s.i q, same, advance_gap]
  · have last : (s.backlog j).pktID = r.pktID := by
      by_contra other
      have atEnd : j = advance s.i (n - 1) := by simpa [other] using stop
      have inside := gap_lt s.i q
      rw [atEnd, gap_advance _ (by omega)] at more
      omega
    exact absurd last (first j more)

/-- A packet that comes takes a free entry and is counted. -/
theorem Counted.enque (counted : s.Counted) (found : s.findFree.exec n s.i = some j) :
    (s.enque r j).Counted := by
  have free : (s.backlog j).busy = false := by
    simpa using (exec_seek_eq_some_iff.mp found).1
  show s.queuesizePKT + 1 = _
  rw [busyEntries_enque free, counted]
  push_cast
  rfl

/-- A packet that leaves gives back a busy entry and is counted off. -/
theorem Counted.deque (counted : s.Counted)
    (found : (s.findWaiting r.pktID).exec n s.i = some j) : (s.deque r j).Counted := by
  have stop := (exec_seek_eq_some_iff.mp found).1
  simp only [Bool.and_eq_true] at stop
  show s.queuesizePKT - 1 = _
  rw [card_busyEntries_erase (s := s) rfl, if_pos stop.1, counted]

/-- A drop keeps the count exactly when it gives back an entry that was busy, or none. -/
theorem counted_drop_iff (counted : s.Counted) :
    (s.drop r j).Counted ↔ ((s.backlog j).pktID = r.pktID → (s.backlog j).busy = true) := by
  rw [drop]
  split_ifs with own
  · rw [Counted, card_busyEntries_erase (s := s) rfl]
    show s.queuesizePKT - 1 = _ ↔ _
    rw [counted]
    split_ifs with busy
    · exact iff_of_true rfl fun _ => busy
    · exact iff_of_false (by omega) fun h => busy (h own)
  · exact iff_of_true counted fun same => absurd same own

/-- The entry where the search of a drop ends stands for all that it could find. -/
theorem dropsWaiting_iff (selected : Selects o r) (code : r.code = .drop)
    (found : (s.findDropped r.pktID).exec n s.i = some j) :
    DropsWaiting o s r ↔ ((s.backlog j).pktID = r.pktID → (s.backlog j).busy = true) := by
  obtain ⟨earlier, only⟩ := findDropped_eq_some found
  constructor
  · intro h own
    exact h selected code j own earlier
  · intro h _ _ q own first
    obtain rfl := only q own first
    exact h own

/-- Samples in between do not matter to a drop. -/
theorem SameQueue.dropsWaiting (same : SameQueue s m) :
    DropsWaiting o m r ↔ DropsWaiting o s r := by
  rw [DropsWaiting, same.backlog, same.i, DropsWaiting]

theorem SameQueue.counted (same : SameQueue s m) (counted : s.Counted) : m.Counted := by
  rw [Counted, same.queuesizePKT, counted, busyEntries, busyEntries, same.backlog]

/-- What one record does to the count. -/
theorem counted_step_iff (counted : s.Counted) (step : s.step o r = some t) :
    t.Counted ↔ DropsWaiting o s r := by
  by_cases selected : Selects o r
  · obtain ⟨m, same, branched⟩ := branch_of_step selected step
    have counted' : m.Counted := same.counted counted
    rw [branch] at branched
    rw [← same.dropsWaiting]
    cases code : r.code with
    | enque =>
        rw [code] at branched
        obtain ⟨j, found, rfl⟩ := Option.map_eq_some_iff.mp branched
        exact iff_of_true (counted'.enque found) (by simp [DropsWaiting, code])
    | deque =>
        rw [code] at branched
        obtain ⟨j, found, rfl⟩ := Option.map_eq_some_iff.mp branched
        exact iff_of_true (counted'.deque found) (by simp [DropsWaiting, code])
    | drop =>
        rw [code] at branched
        obtain ⟨j, found, rfl⟩ := Option.map_eq_some_iff.mp branched
        rw [dropsWaiting_iff selected code found, counted_drop_iff counted']
    | other =>
        rw [code] at branched
        obtain rfl := Option.some.inj branched
        exact iff_of_true counted' (by simp [DropsWaiting, code])
  · rw [Analy.step, if_neg selected] at step
    obtain rfl := Option.some.inj step
    exact iff_of_true counted fun h => absurd h selected

theorem start_counted (pos : 0 < n) (delay : ℚ) (memory : Fin n → Entry) :
    (start pos delay memory).Counted := by
  have none : (start pos delay memory).busyEntries = ∅ :=
    Finset.filter_false_of_mem fun _ _ => Bool.false_ne_true
  rw [Counted, none]
  rfl

/-- As long as the records can be processed, the packets counted are the busy entries after
each of them exactly when every drop that finds its packet finds it waiting. -/
theorem counted_iff (o : Options) (pos : 0 < n) (delay : ℚ) (memory : Fin n → Entry)
    {t : Analy n} {rs : List Record} (ends : run (step o) (start pos delay memory) rs = some t) :
    Throughout (step o) Counted (start pos delay memory) rs ↔
      Along (step o) (DropsWaiting o) (start pos delay memory) rs :=
  throughout_iff_along (W := fun _ => True) trivial (start_counted pos delay memory)
    (fun _ _ _ _ _ => trivial) (fun _ _ _ _ kept step => counted_step_iff kept step) ends

/-- Records of packets that come, none of which is skipped, each take an entry. -/
theorem busyEntries_of_enque {rs : List Record} (come : ∀ r ∈ rs, Selects o r ∧ r.code = .enque)
    (ends : run (step o) s rs = some t) : t.busyEntries.card = s.busyEntries.card + rs.length := by
  induction rs generalizing s with
  | nil =>
      obtain rfl := Option.some.inj ends
      rfl
  | cons r rs ih =>
      obtain ⟨a, first, rest⟩ := run_cons_eq_some.mp ends
      obtain ⟨⟨selected, code⟩, later⟩ := List.forall_mem_cons.mp come
      obtain ⟨m, same, branched⟩ := branch_of_step selected first
      rw [branch, code] at branched
      obtain ⟨j, found, rfl⟩ := Option.map_eq_some_iff.mp branched
      have free : (m.backlog j).busy = false := by
        simpa using (exec_seek_eq_some_iff.mp found).1
      rw [ih later rest, busyEntries_enque free, busyEntries, busyEntries, same.backlog,
        List.length_cons]
      omega

end Analy

theorem isStep_tenth : IsStep (double (1 / 10)) := ⟨by decide +kernel, isDouble_double _⟩

/-- The default arguments. -/
def Options.default : Options := ⟨double (1 / 10), isStep_tenth, none⟩

/-- Before the first record, on memory that is zero. -/
def Analy.zero : Analy analyDim := .start analyDim_pos 0 fun _ => ⟨0, 0, false⟩

/-- A packet of a hundred bytes. -/
def Record.packet (code : Code) (pktID : ℤ) : Record := ⟨code, 0, 100, 0, pktID⟩

/-- More packets than there are entries. -/
def overfull : List Record := List.replicate (analyDim + 1) (.packet .enque 1)

/-- A packet that comes after more than `2 ^ 50` seconds. -/
def late : List Record := [⟨.enque, 2 * 10 ^ 15, 100, 0, 1⟩]

/-- One packet comes, leaves, and is dropped afterwards. -/
def droppedLate : List Record := [.packet .enque 1, .packet .deque 1, .packet .drop 1]

/-- One packet comes and is dropped. -/
def droppedEarly : List Record := [.packet .enque 1, .packet .drop 1]

namespace Analy

/-- The last of the packets hangs the search for an entry, and the late one the samples. -/
theorem overfull_hangs : ¬ (run (step .default) zero overfull).isSome = true ∧
    ¬ (run (step .default) zero late).isSome = true := by
  constructor
  · intro ends
    obtain ⟨t, reach⟩ := Option.isSome_iff_exists.mp ends
    have count := busyEntries_of_enque (o := .default) (fun r hr => by
      rw [List.eq_of_mem_replicate hr]
      exact ⟨by decide, rfl⟩) reach
    have le := t.busyEntries.card_le_univ
    rw [count, overfull, List.length_replicate, Fintype.card_fin] at le
    omega
  · intro ends
    obtain ⟨t, reach⟩ := Option.isSome_iff_exists.mp ends
    obtain ⟨m, first, -⟩ := run_cons_eq_some.mp reach
    have ticking : zero.Ticking .default := start_ticking _ _ _ _
    have found := (step_isSome_iff _ ticking).mp (Option.isSome_of_eq_some first)
    exact absurd (found (by decide)).1 (by decide +kernel)

/-- The drop finds the entry of the packet that has left, and counts it again. -/
theorem droppedLate_not_counted :
    ¬ ∀ rs t, run (step .default) zero rs = some t → t.Counted := by
  intro all
  have count : (run (step .default) zero droppedLate).map queuesizePKT = some (-1) := by
    decide +kernel
  obtain ⟨t, reach, negative⟩ := Option.map_eq_some_iff.mp count
  have counted : t.queuesizePKT = t.busyEntries.card := all droppedLate t reach
  omega

/-- The count is right after the two records, and goes wrong with the three. -/
theorem counted_iff_drops : Throughout (step .default) Counted zero droppedEarly ∧
    (Throughout (step .default) Counted zero droppedLate ↔
      Along (step .default) (DropsWaiting .default) zero droppedLate) := by
  have ends : ∀ rs ∈ [droppedEarly, droppedLate], (run (step .default) zero rs).isSome = true := by
    decide +kernel
  obtain ⟨s, early⟩ := Option.isSome_iff_exists.mp (ends droppedEarly (by simp))
  obtain ⟨t, late⟩ := Option.isSome_iff_exists.mp (ends droppedLate (by simp))
  have waiting : Along (step .default) (DropsWaiting .default) zero droppedEarly := by
    refine ⟨by simp [DropsWaiting, Record.packet], fun m come => ⟨?_, fun _ _ => trivial⟩⟩
    have first : (zero.step .default (.packet .enque 1)).map (fun m =>
        ((m.findDropped 1).exec analyDim m.i).map fun j => (m.backlog j).busy) =
        some (some true) := by
      decide +kernel
    rw [come, Option.map_some, Option.some.injEq] at first
    obtain ⟨j, found, busy⟩ := Option.map_eq_some_iff.mp first
    exact (dropsWaiting_iff (r := .packet .drop 1) (by decide) rfl found).mpr fun _ => busy
  exact ⟨(counted_iff .default analyDim_pos 0 (fun _ => ⟨0, 0, false⟩) early).mpr waiting,
    counted_iff .default analyDim_pos 0 (fun _ => ⟨0, 0, false⟩) late⟩

end Analy

end Mftdma.Utils
