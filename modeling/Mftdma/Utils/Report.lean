import Mathlib.Algebra.BigOperators.Group.List.Basic
import Mathlib.Order.Lattice.Nat
import Mftdma.Utils.Analy

/-!
# What `analy` reports

`describe` says what a line of the output stands for in the terms of the trace alone: what
came, left and was dropped in an interval of time, which packets wait at its end, and how long
those that left in it had waited. The packets that wait are a list here, `waiting`, to which
records add and from which they take packets by number.

`Holds` connects this list with the table `backlog`, whatever the table still has of packets
that left, and `Reported` is the invariant of the main loop. `reports` says that the output
is these lines, up to the interval of the last record. The lines end where `added`, the sum of
sampling intervals as a `double`, comes to, and their numbers are what `int` and `double` make
of the sums; what waits is less than `2 ^ 53` bits, so that sum is exact.
-/

namespace Mftdma.Utils

open Cyclic Execution Machine Probing

/-- The packets that wait after a record, each by the record with which it came. -/
def Record.serve (queue : List Record) (r : Record) : List Record :=
  match r.code with
  | .enque => queue ++ [r]
  | .deque | .drop => queue.eraseP (·.pktID = r.pktID)
  | .other => queue

/-- The packets that wait after these records. -/
def waiting (rs : List Record) : List Record := rs.foldl Record.serve []

/-- The packet that leaves with a record, by the record with which it came. -/
def Record.departure (queue : List Record) (r : Record) : Option (Record × Record) :=
  if r.code = .deque then (queue.find? (·.pktID = r.pktID)).map (·, r) else none

/-- The packets that leave with these records. -/
def departures : List Record → List Record → List (Record × Record)
  | _, [] => []
  | queue, r :: rs => (r.departure queue).toList ++ departures (Record.serve queue r) rs

/-- The number of the interval to which a record belongs: of the samples written before it. -/
noncomputable def interval (smp : ℚ) (r : Record) : ℕ :=
  sInf {k | double (r.time - smp) ≤ added smp 0 k}

noncomputable def during (smp : ℚ) (k : ℕ) (rs : List Record) : List Record :=
  rs.filter (interval smp · = k)

noncomputable def upTo (smp : ℚ) (k : ℕ) (rs : List Record) : List Record :=
  rs.filter (interval smp · ≤ k)

def packets (code : Code) (rs : List Record) : ℤ := (rs.filter (·.code = code)).length

def bits (code : Code) (rs : List Record) : ℤ :=
  ((rs.filter (·.code = code)).map (·.size * 8)).sum

/-- The bits of the packets that wait. -/
def bitsOf (queue : List Record) : ℤ := (queue.map fun w => int32 (w.size * 8)).sum

/-- Another packet has waited. -/
def wait (delay : ℚ) (p : Record × Record) : ℚ := double (delay + double (p.2.time - p.1.time))

/-- How long the packets that left in the interval `k` had waited, together. The first interval
starts with what `delay` held before. -/
noncomputable def sojourn (smp delay : ℚ) (rs : List Record) (k : ℕ) : ℚ :=
  ((departures [] rs).filter (interval smp ·.2 = k)).foldl wait (if k = 0 then delay else 0)

/-- The line of the interval `k`. -/
noncomputable def describe (smp delay : ℚ) (rs : List Record) (k : ℕ) : Sample where
  timestamp := added smp 0 (k + 1)
  inputBIT := int32 (bits .enque (during smp k rs))
  inputPKT := int32 (packets .enque (during smp k rs))
  outputBIT := int32 (bits .deque (during smp k rs))
  outputPKT := int32 (packets .deque (during smp k rs))
  queuesizeBIT := bitsOf (waiting (upTo smp k rs))
  queuesizePKT := (waiting (upTo smp k rs)).length
  dropBIT := int32 (bits .drop (during smp k rs))
  dropPKT := int32 (packets .drop (during smp k rs))
  delay :=
    if int32 (packets .deque (during smp k rs)) = 0 then none
    else some (double (sojourn smp delay rs k / int32 (packets .deque (during smp k rs))))

/-- The interval of the last record. -/
noncomputable def lastInterval (smp : ℚ) (rs : List Record) : ℕ :=
  (rs.getLast?.map (interval smp)).getD 0

/-- What a record says is possible after the records `past`. Numbers of packets are not used
again, there is room for a packet that comes, and one that leaves or is dropped waits and has
the size with which it came. The memory does not name packets that are dropped. -/
structure Consistent {n : ℕ} (memory : Fin n → Entry) (past : List Record) (r : Record) :
    Prop where
  room : r.code = .enque → (waiting past).length < n
  fresh : r.code = .enque → ∀ p ∈ past, p.code = .enque → p.pktID ≠ r.pktID
  waits : r.code = .deque ∨ r.code = .drop →
    ∃ w ∈ waiting past, w.pktID = r.pktID ∧ w.size = r.size
  unnamed : r.code = .drop → ∀ j, (memory j).pktID ≠ r.pktID

/-- The records that a trace consists of so far. -/
def tell (past : List Record) (r : Record) : Option (List Record) := some (past ++ [r])

section lists

variable {smp delay : ℚ} {rs queue : List Record} {r w : Record} {k : ℕ}

theorem run_tell (past rs : List Record) : run tell past rs = some (past ++ rs) := by
  induction rs generalizing past with
  | nil => rw [List.append_nil]; rfl
  | cons r rs ih =>
      have rest := ih (past ++ [r])
      rwa [List.append_assoc, List.singleton_append] at rest

theorem waiting_snoc (rs : List Record) (r : Record) :
    waiting (rs ++ [r]) = Record.serve (waiting rs) r := by
  rw [waiting, List.foldl_append]
  rfl

theorem departures_snoc (queue rs : List Record) (r : Record) : departures queue (rs ++ [r]) =
    departures queue rs ++ (r.departure (rs.foldl Record.serve queue)).toList := by
  induction rs generalizing queue with
  | nil => simp [departures]
  | cons p rs ih => simp only [List.cons_append, departures, ih, List.foldl_cons, List.append_assoc]

theorem departure_snd {p : Record × Record} (h : r.departure queue = some p) : p.2 = r := by
  rw [Record.departure] at h
  split_ifs at h
  obtain ⟨w, -, rfl⟩ := Option.map_eq_some_iff.mp h
  rfl

theorem during_snoc (smp : ℚ) (k : ℕ) (rs : List Record) (r : Record) :
    during smp k (rs ++ [r]) = during smp k rs ++ if interval smp r = k then [r] else [] := by
  simp [during, List.filter_cons]

theorem upTo_snoc (smp : ℚ) (k : ℕ) (rs : List Record) (r : Record) :
    upTo smp k (rs ++ [r]) = upTo smp k rs ++ if interval smp r ≤ k then [r] else [] := by
  simp [upTo, List.filter_cons]

theorem upTo_eq_self (past : ∀ r ∈ rs, interval smp r ≤ k) : upTo smp k rs = rs :=
  List.filter_eq_self.mpr fun r mem => decide_eq_true (past r mem)

theorem during_eq_nil (past : ∀ r ∈ rs, interval smp r < k) : during smp k rs = [] :=
  List.filter_eq_nil_iff.mpr fun r mem => by simpa using (past r mem).ne

theorem packets_snoc (code : Code) (rs : List Record) (r : Record) :
    packets code (rs ++ [r]) = packets code rs + if r.code = code then 1 else 0 := by
  rw [packets, packets, List.filter_append, List.length_append, List.filter_singleton]
  split_ifs with own <;> simp [own]

theorem bits_snoc (code : Code) (rs : List Record) (r : Record) :
    bits code (rs ++ [r]) = bits code rs + if r.code = code then r.size * 8 else 0 := by
  rw [bits, bits, List.filter_append, List.map_append, List.sum_append, List.filter_singleton]
  split_ifs with own <;> simp [own]

theorem int32_bits_snoc (code : Code) (rs : List Record) (r : Record) :
    int32 (bits code (rs ++ [r])) = if r.code = code then
      int32 (int32 (bits code rs) + int32 (r.size * 8)) else int32 (bits code rs) := by
  rw [bits_snoc, int32_add_int32]
  split_ifs
  · rfl
  · rw [add_zero]

theorem int32_packets_snoc (code : Code) (rs : List Record) (r : Record) :
    int32 (packets code (rs ++ [r])) = if r.code = code then
      int32 (int32 (packets code rs) + 1) else int32 (packets code rs) := by
  rw [packets_snoc, int32_add]
  split_ifs
  · rfl
  · rw [add_zero]

theorem mem_of_mem_departures {p : Record × Record} (mem : p ∈ departures queue rs) :
    p.2 ∈ rs := by
  induction rs generalizing queue with
  | nil => cases mem
  | cons r rs ih =>
      obtain here | later := List.mem_append.mp mem
      · rw [departure_snd (Option.mem_toList.mp here)]
        exact List.mem_cons_self
      · exact List.mem_cons_of_mem r (ih later)

/-- Lines of intervals before a record do not change with it. -/
theorem describe_snoc_of_lt (later : k < interval smp r) :
    describe smp delay (rs ++ [r]) k = describe smp delay rs k := by
  have same : during smp k (rs ++ [r]) = during smp k rs := by
    rw [during_snoc, if_neg later.ne', List.append_nil]
  have before : upTo smp k (rs ++ [r]) = upTo smp k rs := by
    rw [upTo_snoc, if_neg later.not_ge, List.append_nil]
  have left : sojourn smp delay (rs ++ [r]) k = sojourn smp delay rs k := by
    have none : ((r.departure (rs.foldl Record.serve [])).toList.filter
        (interval smp ·.2 = k)) = [] := by
      rw [List.filter_eq_nil_iff]
      intro p mem
      rw [departure_snd (Option.mem_toList.mp mem), decide_eq_true_eq]
      exact later.ne'
    rw [sojourn, departures_snoc, List.filter_append, none, List.append_nil]
    rfl
  rw [describe, same, before, left]
  rfl

theorem sojourn_snoc (here : interval smp r = k) : sojourn smp delay (rs ++ [r]) k =
    (r.departure (waiting rs)).toList.foldl wait (sojourn smp delay rs k) := by
  have all : ((r.departure (waiting rs)).toList.filter (interval smp ·.2 = k)) =
      (r.departure (waiting rs)).toList := by
    refine List.filter_eq_self.mpr fun p mem => decide_eq_true ?_
    rw [departure_snd (Option.mem_toList.mp mem), here]
  rw [sojourn, departures_snoc, ← waiting, List.filter_append, all, List.foldl_append]
  rfl

theorem sojourn_eq_zero (past : ∀ r ∈ rs, interval smp r ≤ k) :
    sojourn smp delay rs (k + 1) = 0 := by
  have none : (departures [] rs).filter (interval smp ·.2 = k + 1) = [] := by
    refine List.filter_eq_nil_iff.mpr fun p mem same => ?_
    have before := past p.2 (mem_of_mem_departures mem)
    rw [of_decide_eq_true same] at before
    exact absurd before (Nat.not_succ_le_self k)
  rw [sojourn, if_neg (Nat.succ_ne_zero k), none, List.foldl_nil]

theorem departure_eq_none (other : r.code ≠ .deque) : r.departure queue = none := if_neg other

/-- A packet of its own number is the one that leaves by this number. -/
theorem perm_eraseP (nodup : (queue.map Record.pktID).Nodup) (mem : w ∈ queue)
    (own : w.pktID = r.pktID) : queue.Perm (w :: queue.eraseP (·.pktID = r.pktID)) := by
  obtain ⟨w', before, after, -, named, split, erased⟩ := List.exists_of_eraseP
    (p := fun p : Record => decide (p.pktID = r.pktID)) mem (decide_eq_true own)
  obtain rfl : w' = w := List.inj_on_of_nodup_map nodup (by simp [split]) mem
    ((of_decide_eq_true named).trans own.symm)
  rw [erased]
  conv_lhs => rw [split]
  exact List.perm_middle

/-- It takes its size along. -/
theorem sums_of_mem (nodup : (queue.map Record.pktID).Nodup) (mem : w ∈ queue)
    (own : w.pktID = r.pktID) (size : w.size = r.size) :
    bitsOf (queue.eraseP (·.pktID = r.pktID)) = bitsOf queue - int32 (r.size * 8) ∧
      ((queue.eraseP (·.pktID = r.pktID)).length : ℤ) = queue.length - 1 := by
  have perm := perm_eraseP nodup mem own
  have total := (perm.map fun p => int32 (p.size * 8)).sum_eq
  have count := perm.length_eq
  rw [List.map_cons, List.sum_cons, size] at total
  rw [List.length_cons] at count
  constructor
  · rw [bitsOf, bitsOf, total, add_sub_cancel_left]
  · omega

theorem find?_eq (nodup : (queue.map Record.pktID).Nodup) (mem : w ∈ queue)
    (own : w.pktID = r.pktID) : queue.find? (·.pktID = r.pktID) = some w := by
  obtain ⟨w', found⟩ := Option.isSome_iff_exists.mp
    (List.find?_isSome (p := fun p : Record => decide (p.pktID = r.pktID)).mpr
      ⟨w, mem, decide_eq_true own⟩)
  rw [found, List.inj_on_of_nodup_map nodup (List.mem_of_find?_eq_some found) mem
    ((of_decide_eq_true (List.find?_some (p := fun p : Record => decide (p.pktID = r.pktID))
      found)).trans own.symm)]

/-- Each packet that waits has less than `2 ^ 31` bits. -/
theorem abs_bitsOf_le (queue : List Record) : |bitsOf queue| ≤ 2 ^ 31 * queue.length := by
  induction queue with
  | nil => rfl
  | cons w queue ih =>
      have sum : bitsOf (w :: queue) = int32 (w.size * 8) + bitsOf queue := List.sum_cons
      have one : |int32 (w.size * 8)| ≤ 2 ^ 31 := abs_le.mpr ⟨le_int32 _, (int32_lt _).le⟩
      have both := abs_add_le (int32 (w.size * 8)) (bitsOf queue)
      rw [sum, List.length_cons]
      push_cast
      linarith

/-- The packets that wait have come. -/
theorem of_mem_waiting (mem : w ∈ waiting rs) : w ∈ rs ∧ w.code = .enque := by
  induction rs using List.reverseRecOn with
  | nil => cases mem
  | append_singleton rs r ih =>
      rw [waiting_snoc, Record.serve] at mem
      have kept : w ∈ waiting rs → w ∈ rs ++ [r] ∧ w.code = .enque := fun old =>
        ⟨List.mem_append_left _ (ih old).1, (ih old).2⟩
      cases code : r.code with
      | enque =>
          rw [code] at mem
          obtain old | new := List.mem_append.mp mem
          · exact kept old
          · obtain rfl := List.mem_singleton.mp new
            exact ⟨List.mem_append_right _ new, code⟩
      | deque =>
          rw [code] at mem
          exact kept (List.mem_of_mem_eraseP mem)
      | drop =>
          rw [code] at mem
          exact kept (List.mem_of_mem_eraseP mem)
      | other =>
          rw [code] at mem
          exact kept mem

end lists

namespace Analy

variable {n : ℕ} {memory : Fin n → Entry} {smp delay time : ℚ} {rs : List Record}
  {r w : Record} {k : ℕ} {s m : Analy n} {j : Fin n} {o : Options}

/-- The busy entries of `backlog` are the packets that wait, each once and with its time.
The others have numbers of packets that do not wait, or what the memory held. -/
structure Holds (memory : Fin n → Entry) (rs : List Record) (s : Analy n) : Prop where
  entries : s.busyEntries.val.map (fun j => ((s.backlog j).pktID, (s.backlog j).ts)) =
    ((waiting rs).map fun w => (w.pktID, w.time) : List (ℤ × ℚ))
  nodup : ((waiting rs).map Record.pktID).Nodup
  stale : ∀ j, (s.backlog j).busy = false → (s.backlog j).pktID = (memory j).pktID ∨
    (∃ p ∈ rs, p.code = .enque ∧ p.pktID = (s.backlog j).pktID) ∧
      ∀ w ∈ waiting rs, w.pktID ≠ (s.backlog j).pktID

theorem Holds.card (h : Holds memory rs s) : s.busyEntries.card = (waiting rs).length := by
  have sizes := congrArg Multiset.card h.entries
  rwa [Multiset.card_map, Multiset.coe_card, List.length_map] at sizes

theorem Holds.exists_entry (h : Holds memory rs s) (mem : w ∈ waiting rs) : ∃ j,
    (s.backlog j).busy = true ∧ (s.backlog j).pktID = w.pktID ∧ (s.backlog j).ts = w.time := by
  have listed : (w.pktID, w.time) ∈ ((waiting rs).map fun w => (w.pktID, w.time) : List (ℤ × ℚ)) :=
    List.mem_map.mpr ⟨w, mem, rfl⟩
  rw [← Multiset.mem_coe, ← h.entries, Multiset.mem_map] at listed
  obtain ⟨j, busy, same⟩ := listed
  obtain ⟨number, since⟩ := Prod.mk.inj same
  exact ⟨j, mem_busyEntries.mp busy, number, since⟩

theorem Holds.exists_waiting (h : Holds memory rs s) (busy : (s.backlog j).busy = true) :
    ∃ w ∈ waiting rs, w.pktID = (s.backlog j).pktID ∧ w.time = (s.backlog j).ts := by
  have mem : j ∈ s.busyEntries.val := mem_busyEntries.mpr busy
  have listed := Multiset.mem_map_of_mem (fun j => ((s.backlog j).pktID, (s.backlog j).ts)) mem
  rw [h.entries, Multiset.mem_coe, List.mem_map] at listed
  obtain ⟨w, mem, same⟩ := listed
  obtain ⟨number, since⟩ := Prod.mk.inj same
  exact ⟨w, mem, number, since⟩

/-- A number that waits has its packet in each busy entry of this number. -/
theorem Holds.ts_eq (h : Holds memory rs s) (mem : w ∈ waiting rs)
    (busy : (s.backlog j).busy = true) (own : (s.backlog j).pktID = w.pktID) :
    (s.backlog j).ts = w.time := by
  obtain ⟨w', mem', number, since⟩ := h.exists_waiting busy
  obtain rfl := List.inj_on_of_nodup_map h.nodup mem' mem (number.trans own)
  exact since.symm

theorem Holds.congr (h : Holds memory rs s) (same : m.backlog = s.backlog) :
    Holds memory rs m := by
  obtain ⟨entries, nodup, stale⟩ := h
  exact ⟨by rw [busyEntries, same]; exact entries, nodup, by rwa [same]⟩

/-- A packet that comes takes a free entry. -/
theorem Holds.enque (h : Holds memory rs s) (code : r.code = .enque)
    (fresh : ∀ p ∈ rs, p.code = .enque → p.pktID ≠ r.pktID) (free : (s.backlog j).busy = false) :
    Holds memory (rs ++ [r]) (s.enque r j) := by
  have table : (s.enque r j).backlog = Function.update s.backlog j ⟨r.time, r.pktID, true⟩ := rfl
  have queue : waiting (rs ++ [r]) = waiting rs ++ [r] := by rw [waiting_snoc, Record.serve, code]
  have new : j ∉ s.busyEntries := by rw [mem_busyEntries, free]; exact Bool.false_ne_true
  refine ⟨?_, ?_, fun k idle => ?_⟩
  · rw [busyEntries_update _ table, if_pos rfl, Finset.insert_val_of_notMem new, Multiset.map_cons,
      table, Function.update_self, queue, List.map_append, List.map_singleton,
      Multiset.coe_eq_coe.mpr (List.perm_append_singleton _ _), ← Multiset.cons_coe, ← h.entries]
    congr 1
    refine Multiset.map_congr rfl fun k busy => ?_
    rw [Function.update_of_ne (ne_of_mem_of_not_mem (Finset.mem_val.mp busy) new)]
  · rw [queue, List.map_append, List.map_singleton, List.nodup_append]
    refine ⟨h.nodup, List.nodup_singleton _, ?_⟩
    rintro _ old _ last
    obtain ⟨p, mem, rfl⟩ := List.mem_map.mp old
    obtain rfl := List.mem_singleton.mp last
    exact fresh p (of_mem_waiting mem).1 (of_mem_waiting mem).2
  · have other : k ≠ j := by
      rintro rfl
      rw [table, Function.update_self] at idle
      cases idle
    rw [table, Function.update_of_ne other] at idle ⊢
    refine (h.stale k idle).imp id fun ⟨⟨p, mem, came, named⟩, gone⟩ => ?_
    refine ⟨⟨p, List.mem_append_left _ mem, came, named⟩, fun w waits => ?_⟩
    rw [queue] at waits
    obtain old | last := List.mem_append.mp waits
    · exact gone w old
    · obtain rfl := List.mem_singleton.mp last
      exact named ▸ (fresh p mem came).symm

/-- The entry of a packet that waits is given back when it goes. -/
theorem Holds.release (h : Holds memory rs s) (mem : w ∈ waiting rs) (own : w.pktID = r.pktID)
    (goes : waiting (rs ++ [r]) = (waiting rs).eraseP (·.pktID = r.pktID))
    (busy : (s.backlog j).busy = true) (here : (s.backlog j).pktID = w.pktID)
    (table : m.backlog = Function.update s.backlog j { s.backlog j with busy := false }) :
    Holds memory (rs ++ [r]) m := by
  have taken : j ∈ s.busyEntries := mem_busyEntries.mpr busy
  have perm := perm_eraseP h.nodup mem own
  rw [← goes] at perm
  have ids := (perm.map Record.pktID).nodup h.nodup
  rw [List.map_cons, List.nodup_cons] at ids
  refine ⟨?_, ids.2, fun k idle => ?_⟩
  · have before := h.entries
    rw [← Multiset.cons_erase (Finset.mem_val.mpr taken), Multiset.map_cons, here,
      h.ts_eq mem busy here, Multiset.coe_eq_coe.mpr (perm.map _), List.map_cons,
      ← Multiset.cons_coe, Multiset.cons_inj_right] at before
    rw [busyEntries_update _ table, if_neg Bool.false_ne_true, Finset.erase_val, ← before]
    refine Multiset.map_congr rfl fun k busy => ?_
    have other : k ≠ j := (Finset.mem_erase.mp (Finset.mem_val.mp (by rwa [Finset.erase_val]))).1
    rw [table, Function.update_of_ne other]
  · by_cases other : k = j
    · subst other
      rw [table, Function.update_self]
      refine .inr ⟨⟨w, List.mem_append_left _ (of_mem_waiting mem).1, (of_mem_waiting mem).2,
        here.symm⟩, fun w' waits same => ids.1 (List.mem_map.mpr ⟨w', waits, ?_⟩)⟩
      exact same.trans here
    · rw [table, Function.update_of_ne other] at idle ⊢
      refine (h.stale k idle).imp id fun ⟨⟨p, old, came, named⟩, gone⟩ => ?_
      exact ⟨⟨p, List.mem_append_left _ old, came, named⟩, fun w' waits =>
        gone w' (List.mem_of_mem_eraseP (goes ▸ waits))⟩

/-- A record that changes nothing. -/
theorem Holds.keep (h : Holds memory rs s) (same : waiting (rs ++ [r]) = waiting rs) :
    Holds memory (rs ++ [r]) s := by
  refine ⟨by rw [same, h.entries], same ▸ h.nodup, fun j idle => ?_⟩
  rw [same]
  obtain held | ⟨⟨p, mem, came⟩, gone⟩ := h.stale j idle
  · exact .inl held
  · exact .inr ⟨⟨p, List.mem_append_left _ mem, came⟩, gone⟩

/-- The line that the next pass of the sampling loop writes. -/
def line (smp : ℚ) (s : Analy n) : Sample where
  timestamp := double (s.timestamp + smp)
  inputBIT := s.inputBIT
  inputPKT := s.inputPKT
  outputBIT := s.outputBIT
  outputPKT := s.outputPKT
  queuesizeBIT := s.queuesizeBIT
  queuesizePKT := s.queuesizePKT
  dropBIT := s.dropBIT
  dropPKT := s.dropPKT
  delay := if s.outputPKT = 0 then none else some (double (s.delay / s.outputPKT))

/-- After the records `rs`, in the interval `k` or before it: the lines of the intervals before
have been written, and the variables have what the line of this one needs. -/
structure Reported (smp delay : ℚ) (memory : Fin n → Entry) (rs : List Record) (k : ℕ)
    (s : Analy n) : Prop where
  table : Holds memory rs s
  past : ∀ r ∈ rs, interval smp r ≤ k
  lines : s.lines = (List.range k).map (describe smp delay rs)
  timestamp : s.timestamp = added smp 0 k
  inputBIT : s.inputBIT = int32 (bits .enque (during smp k rs))
  inputPKT : s.inputPKT = int32 (packets .enque (during smp k rs))
  outputBIT : s.outputBIT = int32 (bits .deque (during smp k rs))
  outputPKT : s.outputPKT = int32 (packets .deque (during smp k rs))
  queuesizeBIT : s.queuesizeBIT = bitsOf (waiting rs)
  queuesizePKT : s.queuesizePKT = (waiting rs).length
  dropBIT : s.dropBIT = int32 (bits .drop (during smp k rs))
  dropPKT : s.dropPKT = int32 (packets .drop (during smp k rs))
  delay : s.delay = sojourn smp delay rs k

theorem start_reported (pos : 0 < n) (smp delay : ℚ) (memory : Fin n → Entry) :
    Reported smp delay memory [] 0 (start pos delay memory) where
  table := by
    refine ⟨?_, List.nodup_nil, fun j _ => .inl rfl⟩
    have none : (start pos delay memory).busyEntries = ∅ :=
      Finset.filter_false_of_mem fun _ _ => Bool.false_ne_true
    rw [none]
    rfl
  past := by simp
  lines := rfl
  timestamp := rfl
  inputBIT := int32_zero.symm
  inputPKT := int32_zero.symm
  outputBIT := int32_zero.symm
  outputPKT := int32_zero.symm
  queuesizeBIT := Int.cast_zero.symm
  queuesizePKT := rfl
  dropBIT := int32_zero.symm
  dropPKT := int32_zero.symm
  delay := rfl

theorem Reported.line_eq (h : Reported smp delay memory rs k s) :
    s.line smp = describe smp delay rs k := by
  have time : double (s.timestamp + smp) = added smp 0 (k + 1) := by rw [h.timestamp]; rfl
  simp only [line, describe, upTo_eq_self h.past, time, h.inputBIT, h.inputPKT, h.outputBIT,
    h.outputPKT, h.queuesizeBIT, h.queuesizePKT, h.dropBIT, h.dropPKT, h.delay]

/-- A line that is written is the one of its interval. -/
theorem Reported.sample (h : Reported smp delay memory rs k s) :
    Reported smp delay memory rs (k + 1) (s.sample smp) := by
  have none : during smp (k + 1) rs = [] :=
    during_eq_nil fun r mem => Nat.lt_succ_of_le (h.past r mem)
  refine ⟨h.table.congr rfl, fun r mem => (h.past r mem).trans k.le_succ, ?_, ?_, ?_, ?_, ?_, ?_,
    h.queuesizeBIT, h.queuesizePKT, ?_, ?_, (sojourn_eq_zero h.past).symm⟩
  · rw [List.range_succ, List.map_append, List.map_singleton, ← h.lines, ← h.line_eq]
    rfl
  · show double (s.timestamp + smp) = _
    rw [h.timestamp]
    rfl
  all_goals rw [none]; rfl

/-- What a branch does to the counters of an interval. -/
structure Branched (r : Record) (s m : Analy n) : Prop where
  lines : m.lines = s.lines
  timestamp : m.timestamp = s.timestamp
  inputBIT : m.inputBIT =
    if r.code = .enque then int32 (s.inputBIT + int32 (r.size * 8)) else s.inputBIT
  inputPKT : m.inputPKT = if r.code = .enque then int32 (s.inputPKT + 1) else s.inputPKT
  outputBIT : m.outputBIT =
    if r.code = .deque then int32 (s.outputBIT + int32 (r.size * 8)) else s.outputBIT
  outputPKT : m.outputPKT = if r.code = .deque then int32 (s.outputPKT + 1) else s.outputPKT
  dropBIT : m.dropBIT =
    if r.code = .drop then int32 (s.dropBIT + int32 (r.size * 8)) else s.dropBIT
  dropPKT : m.dropPKT = if r.code = .drop then int32 (s.dropPKT + 1) else s.dropPKT

theorem branched (step : s.branch r = some m) : Branched r s m := by
  unfold branch at step
  cases code : r.code with
  | enque =>
      rw [code] at step
      obtain ⟨j, -, rfl⟩ := Option.map_eq_some_iff.mp step
      constructor <;> simp [Analy.enque, code]
  | deque =>
      rw [code] at step
      obtain ⟨j, -, rfl⟩ := Option.map_eq_some_iff.mp step
      constructor <;> simp [Analy.deque, code]
  | drop =>
      rw [code] at step
      obtain ⟨j, -, rfl⟩ := Option.map_eq_some_iff.mp step
      unfold Analy.drop
      split_ifs <;> constructor <;> simp [code]
  | other =>
      rw [code] at step
      obtain rfl := Option.some.inj step
      constructor <;> simp [code]

/-- What waits is few enough bits to be exact. -/
theorem Holds.double_bitsOf (h : Holds memory rs s) (small : n ≤ 2 ^ 22) :
    double (bitsOf (waiting rs)) = bitsOf (waiting rs) := by
  have count : (waiting rs).length ≤ n := by
    rw [← h.card]
    exact s.busyEntries.card_le_univ.trans_eq (Fintype.card_fin n)
  have bound := abs_bitsOf_le (waiting rs)
  exact (isDouble_intCast (by omega)).double_eq

/-- A record of the interval is counted in it. -/
theorem Reported.snoc (h : Reported smp delay memory rs k s) (here : interval smp r = k)
    (small : n ≤ 2 ^ 22) (b : Branched r s m) (table : Holds memory (rs ++ [r]) m)
    (queuesizeBIT : m.queuesizeBIT = double (bitsOf (waiting (rs ++ [r]))))
    (queuesizePKT : m.queuesizePKT = (waiting (rs ++ [r])).length)
    (waited : m.delay = (r.departure (waiting rs)).toList.foldl wait s.delay) :
    Reported smp delay memory (rs ++ [r]) k m := by
  have inside : during smp k (rs ++ [r]) = during smp k rs ++ [r] := by
    rw [during_snoc, if_pos here]
  refine ⟨table, ?_, ?_, b.timestamp.trans h.timestamp, ?_, ?_, ?_, ?_,
    queuesizeBIT.trans (table.double_bitsOf small), queuesizePKT, ?_, ?_, ?_⟩
  · intro p mem
    obtain old | last := List.mem_append.mp mem
    · exact h.past p old
    · obtain rfl := List.mem_singleton.mp last
      exact here.le
  · rw [b.lines, h.lines]
    refine List.map_congr_left fun i mem => (describe_snoc_of_lt ?_).symm
    rw [here]
    exact List.mem_range.mp mem
  · rw [b.inputBIT, inside, int32_bits_snoc, h.inputBIT]
  · rw [b.inputPKT, inside, int32_packets_snoc, h.inputPKT]
  · rw [b.outputBIT, inside, int32_bits_snoc, h.outputBIT]
  · rw [b.outputPKT, inside, int32_packets_snoc, h.outputPKT]
  · rw [b.dropBIT, inside, int32_bits_snoc, h.dropBIT]
  · rw [b.dropPKT, inside, int32_packets_snoc, h.dropPKT]
  · rw [waited, sojourn_snoc here, h.delay]

/-- The search of a drop ends at the entry of the packet, for no other one has its number. -/
theorem Holds.findDropped (h : Holds memory rs s) (mem : w ∈ waiting rs)
    (own : w.pktID = r.pktID) (unnamed : ∀ j, (memory j).pktID ≠ r.pktID) :
    ∃ j, (s.findDropped r.pktID).exec n s.i = some j ∧ (s.backlog j).busy = true ∧
      (s.backlog j).pktID = r.pktID := by
  obtain ⟨j, found⟩ := Option.isSome_iff_exists.mp (s.findDropped_ends r.pktID)
  obtain ⟨q, -, named, -⟩ := h.exists_entry mem
  have here : (s.backlog j).pktID = r.pktID := by
    obtain ⟨stop, before⟩ := exec_seek_eq_some_iff.mp found
    by_contra other
    have last : j = advance s.i (n - 1) := by simpa [other] using stop
    have reach : gap s.i q < n := gap_lt s.i q
    obtain less | same := Nat.lt_or_eq_of_le (Nat.le_sub_one_of_lt reach)
    · have passed := before q (by rwa [last, gap_advance _ (by omega)])
      simp [named.trans own] at passed
    · rw [last, ← same, advance_gap] at other
      exact other (named.trans own)
  refine ⟨j, found, ?_, here⟩
  by_contra idle
  obtain held | ⟨-, gone⟩ := h.stale j (Bool.not_eq_true _ ▸ idle)
  · exact unnamed j (held.symm.trans here)
  · exact gone w mem (own.trans here.symm)

theorem Reported.enque (h : Reported smp delay memory rs k s) (here : interval smp r = k)
    (small : n ≤ 2 ^ 22) (ok : Consistent memory rs r) (code : r.code = .enque) :
    ∃ m, s.branch r = some m ∧ Reported smp delay memory (rs ++ [r]) k m := by
  have queue : waiting (rs ++ [r]) = waiting rs ++ [r] := by rw [waiting_snoc, Record.serve, code]
  have room : ∃ j, (s.backlog j).busy = false := by
    by_contra full
    have all : s.busyEntries = Finset.univ := by
      refine Finset.eq_univ_of_forall fun j => mem_busyEntries.mpr ?_
      exact Bool.not_eq_false _ ▸ not_exists.mp full j
    have short := ok.room code
    rw [← h.table.card, all, Finset.card_univ, Fintype.card_fin] at short
    exact lt_irrefl n short
  have ends : (s.findFree.exec n s.i).isSome = true := by
    rw [findFree, exec_seek_isSome_iff]
    simpa using room
  obtain ⟨j, found⟩ := Option.isSome_iff_exists.mp ends
  have free : (s.backlog j).busy = false := by simpa using (exec_seek_eq_some_iff.mp found).1
  have step : s.branch r = some (s.enque r j) := by rw [Analy.branch, code, found]; rfl
  refine ⟨_, step, h.snoc here small (branched step) (h.table.enque code (ok.fresh code) free)
    ?_ ?_ ?_⟩
  · show double (s.queuesizeBIT + int32 (r.size * 8)) = _
    rw [queue, h.queuesizeBIT, bitsOf, bitsOf, List.map_append, List.sum_append]
    simp
  · rw [queue, List.length_append, Nat.cast_add, ← h.queuesizePKT]
    rfl
  · rw [departure_eq_none (by simp [code])]
    rfl

theorem Reported.deque (h : Reported smp delay memory rs k s) (here : interval smp r = k)
    (small : n ≤ 2 ^ 22) (ok : Consistent memory rs r) (code : r.code = .deque) :
    ∃ m, s.branch r = some m ∧ Reported smp delay memory (rs ++ [r]) k m := by
  have queue : waiting (rs ++ [r]) = (waiting rs).eraseP (·.pktID = r.pktID) := by
    rw [waiting_snoc, Record.serve, code]
  obtain ⟨w, mem, own, size⟩ := ok.waits (.inl code)
  obtain ⟨sizes, count⟩ := sums_of_mem h.table.nodup mem own size
  have ends : ((s.findWaiting r.pktID).exec n s.i).isSome = true := by
    obtain ⟨q, busy, named, -⟩ := h.table.exists_entry mem
    exact exec_seek_isSome_iff.mpr ⟨q, by simp [busy, named, own]⟩
  obtain ⟨j, found⟩ := Option.isSome_iff_exists.mp ends
  have stop : (s.backlog j).busy = true ∧ (s.backlog j).pktID = r.pktID := by
    simpa using (exec_seek_eq_some_iff.mp found).1
  have named := stop.2.trans own.symm
  have step : s.branch r = some (s.deque r j) := by rw [Analy.branch, code, found]; rfl
  refine ⟨_, step, h.snoc here small (branched step)
    (h.table.release mem own queue stop.1 named rfl) ?_ ?_ ?_⟩
  · show double (s.queuesizeBIT - int32 (r.size * 8)) = _
    rw [queue, sizes, h.queuesizeBIT, Int.cast_sub]
  · rw [queue, count, ← h.queuesizePKT]
    rfl
  · have waited : (s.deque r j).delay = double (s.delay + double (r.time - w.time)) := by
      rw [← h.table.ts_eq mem stop.1 named]
      rfl
    rw [Record.departure, if_pos code, find?_eq h.table.nodup mem own, waited]
    rfl

theorem Reported.drop (h : Reported smp delay memory rs k s) (here : interval smp r = k)
    (small : n ≤ 2 ^ 22) (ok : Consistent memory rs r) (code : r.code = .drop) :
    ∃ m, s.branch r = some m ∧ Reported smp delay memory (rs ++ [r]) k m := by
  have queue : waiting (rs ++ [r]) = (waiting rs).eraseP (·.pktID = r.pktID) := by
    rw [waiting_snoc, Record.serve, code]
  obtain ⟨w, mem, own, size⟩ := ok.waits (.inr code)
  obtain ⟨sizes, count⟩ := sums_of_mem h.table.nodup mem own size
  obtain ⟨j, found, busy, named⟩ := h.table.findDropped mem own (ok.unnamed code)
  have step : s.branch r = some (s.drop r j) := by rw [Analy.branch, code, found]; rfl
  have table : (s.drop r j).backlog =
      Function.update s.backlog j { s.backlog j with busy := false } := by
    rw [Analy.drop, if_pos named]
  refine ⟨_, step, h.snoc here small (branched step)
    (h.table.release mem own queue busy (named.trans own.symm) table) ?_ ?_ ?_⟩
  · rw [queue, sizes, Int.cast_sub, ← h.queuesizeBIT, Analy.drop, if_pos named]
  · rw [queue, count, ← h.queuesizePKT, Analy.drop, if_pos named]
  · rw [departure_eq_none (by simp [code]), Analy.drop, if_pos named]
    rfl

/-- A consistent record has its branch come to an end, and is counted. -/
theorem Reported.branch (h : Reported smp delay memory rs k s) (here : interval smp r = k)
    (small : n ≤ 2 ^ 22) (ok : Consistent memory rs r) :
    ∃ m, s.branch r = some m ∧ Reported smp delay memory (rs ++ [r]) k m := by
  cases code : r.code with
  | enque => exact h.enque here small ok code
  | deque => exact h.deque here small ok code
  | drop => exact h.drop here small ok code
  | other =>
      have queue : waiting (rs ++ [r]) = waiting rs := by rw [waiting_snoc, Record.serve, code]
      have step : s.branch r = some s := by rw [Analy.branch, code]
      refine ⟨s, step, h.snoc here small (branched step) (h.table.keep queue) ?_ ?_ ?_⟩
      · rw [queue, h.queuesizeBIT, h.table.double_bitsOf small]
      · rw [queue, h.queuesizePKT]
      · rw [departure_eq_none (by simp [code])]
        rfl

/-- The sum reaches every time before it stalls. -/
theorem exists_le_added (o : Options) (early : double (time - o.smp) ≤ stall o.smp) :
    ∃ k, double (time - o.smp) ≤ added o.smp 0 k := by
  let s : Analy analyDim := start analyDim_pos 0 fun _ => ⟨0, 0, false⟩
  have ticking : s.Ticking o := start_ticking o _ _ _
  obtain ⟨m, found⟩ :=
    Option.isSome_iff_exists.mp ((sampling_ends_iff time ticking).mpr early)
  obtain ⟨visited, exit⟩ := Loop.returns_iff.mp ⟨_, found⟩
  obtain ⟨k, same⟩ : ∃ k, m.timestamp = added o.smp 0 k := by
    apply visited.invariant (I := fun a => ∃ k, a.timestamp = added o.smp 0 k) ⟨0, rfl⟩
    rintro a - ⟨k, same⟩ -
    exact ⟨k + 1, congrArg (fun t => double (t + o.smp)) same⟩
  exact ⟨k, same ▸ not_lt.mp (of_decide_eq_false exit)⟩

theorem interval_le_iff (early : double (r.time - o.smp) ≤ stall o.smp) :
    interval o.smp r ≤ k ↔ double (r.time - o.smp) ≤ added o.smp 0 k := by
  refine ⟨fun le => ?_, fun le => Nat.sInf_le le⟩
  have mem : double (r.time - o.smp) ≤ added o.smp 0 (interval o.smp r) :=
    Nat.sInf_mem (exists_le_added o early)
  exact mem.trans (added_mono o.smp_step.pos.le isDouble_zero le)

/-- The samples before a record lead to its interval. -/
theorem Reported.sampled (h : Reported o.smp delay memory rs k s) (le : k ≤ interval o.smp r)
    (early : double (r.time - o.smp) ≤ stall o.smp)
    (found : (sampling o.smp r.time).exec (s.samplesLeft o.smp r.time) s = some m) :
    Reported o.smp delay memory rs (interval o.smp r) m := by
  -- A pass is made exactly while the interval of the state is before that of the record.
  have guard : ∀ k a, Reported o.smp delay memory rs k a →
      ((sampling o.smp r.time).guard a = true ↔ k < interval o.smp r) := by
    intro k a reported
    show decide (a.timestamp < double (r.time - o.smp)) = true ↔ _
    rw [decide_eq_true_eq, reported.timestamp, ← not_le, ← interval_le_iff early, not_le]
  obtain ⟨visited, exit⟩ := Loop.returns_iff.mp ⟨_, found⟩
  obtain ⟨k', le', reported⟩ := visited.invariant
    (I := fun a => ∃ k ≤ interval o.smp r, Reported o.smp delay memory rs k a) ⟨k, le, h⟩
    fun a _ ⟨k, _, reported⟩ more => ⟨k + 1, (guard k a reported).mp more, reported.sample⟩
  have last : ¬ k' < interval o.smp r := by
    rw [← guard k' m reported, exit]
    exact Bool.false_ne_true
  rwa [le'.antisymm (not_lt.mp last)] at reported

/-- One record. -/
theorem Reported.step (h : Reported o.smp delay memory rs k s) (ticking : s.Ticking o)
    (small : n ≤ 2 ^ 22) (selected : Selects o r) (le : k ≤ interval o.smp r)
    (early : double (r.time - o.smp) ≤ stall o.smp) (ok : Consistent memory rs r) :
    ∃ m, s.step o r = some m ∧
      Reported o.smp delay memory (rs ++ [r]) (interval o.smp r) m := by
  obtain ⟨a, found⟩ :=
    Option.isSome_iff_exists.mp ((sampling_ends_iff r.time ticking).mpr early)
  obtain ⟨m, branched, reported⟩ := (h.sampled le early found).branch rfl small ok
  exact ⟨m, by rw [Analy.step, if_pos selected, found, Option.bind_some, branched], reported⟩

theorem interval_mono {p : Record} (le : p.time ≤ r.time)
    (early : double (r.time - o.smp) ≤ stall o.smp) : interval o.smp p ≤ interval o.smp r := by
  have sooner : double (p.time - o.smp) ≤ double (r.time - o.smp) :=
    double_mono (sub_le_sub_right le o.smp)
  exact Nat.sInf_le (sooner.trans ((interval_le_iff early).mp le_rfl))

theorem lastInterval_le (before : ∀ p ∈ rs, p.time ≤ r.time)
    (early : double (r.time - o.smp) ≤ stall o.smp) :
    lastInterval o.smp rs ≤ interval o.smp r := by
  rw [lastInterval]
  cases last : rs.getLast? with
  | none => exact Nat.zero_le _
  | some p => exact interval_mono (before p (List.mem_of_getLast? last)) early

/-- A consistent trace in the order of time is read to its end. -/
theorem exists_run_reported (o : Options) (pos : 0 < n) (small : n ≤ 2 ^ 22) (delay : ℚ)
    (memory : Fin n → Entry) (selected : ∀ r ∈ rs, Selects o r)
    (early : ∀ r ∈ rs, double (r.time - o.smp) ≤ stall o.smp)
    (told : Along tell (Consistent memory) [] rs)
    (ordered : rs.Pairwise fun p r => p.time ≤ r.time) :
    ∃ s, run (step o) (start pos delay memory) rs = some s ∧ s.Ticking o ∧
      Reported o.smp delay memory rs (lastInterval o.smp rs) s := by
  induction rs using List.reverseRecOn with
  | nil => exact ⟨_, rfl, start_ticking o pos delay memory, start_reported pos o.smp delay memory⟩
  | append_singleton rs r ih =>
      obtain ⟨before, ok⟩ := along_snoc_iff.mp told
      obtain ⟨sorted, -, last⟩ := List.pairwise_append.mp ordered
      have mem : r ∈ rs ++ [r] := List.mem_append_right _ (List.mem_singleton_self r)
      obtain ⟨s, reach, ticking, reported⟩ := ih
        (fun p old => selected p (List.mem_append_left _ old))
        (fun p old => early p (List.mem_append_left _ old)) before sorted
      have le := lastInterval_le (fun p old => last p old r (List.mem_singleton_self r))
        (early r mem)
      obtain ⟨m, step, counted⟩ := reported.step ticking small (selected r mem) le (early r mem)
        (ok rs (run_tell [] rs))
      refine ⟨m, run_snoc_eq_some.mpr ⟨s, reach, step⟩, ticking.step step, ?_⟩
      have here : lastInterval o.smp (rs ++ [r]) = interval o.smp r := by
        rw [lastInterval, List.getLast?_concat]
        rfl
      rwa [here]

/-- The records that the `flowid` argument lets pass. -/
def flow (o : Options) (rs : List Record) : List Record := rs.filter fun r => Selects o r

/-- The others are passed over. -/
theorem run_flow (o : Options) (s : Analy n) (rs : List Record) :
    run (step o) s rs = run (step o) s (flow o rs) := by
  induction rs generalizing s with
  | nil => rfl
  | cons r rs ih =>
      by_cases selected : Selects o r
      · have kept : flow o (r :: rs) = r :: flow o rs := by simp [flow, selected]
        rw [kept]
        exact congrArg (Option.bind (s.step o r)) (funext fun m => ih m)
      · have skipped : flow o (r :: rs) = flow o rs := by simp [flow, selected]
        have step : s.step o r = some s := if_neg selected
        rw [skipped, ← ih]
        show (s.step o r).bind _ = _
        rw [step]
        rfl

/-- Whatever a flow does that a queue can do, in the order of time and before the sum of
sampling intervals stalls, `analy` comes to the end of the trace and has written the lines of
the intervals before that of its last record. -/
theorem reports (o : Options) (delay : ℚ) (memory : Fin analyDim → Entry) (rs : List Record)
    (told : Along tell (Consistent memory) [] (flow o rs))
    (ordered : (flow o rs).Pairwise fun p r => p.time ≤ r.time)
    (early : ∀ r ∈ flow o rs, double (r.time - o.smp) ≤ stall o.smp) :
    ∃ s, run (step o) (start analyDim_pos delay memory) rs = some s ∧
      s.lines = (List.range (lastInterval o.smp (flow o rs))).map
        (describe o.smp delay (flow o rs)) := by
  obtain ⟨s, reach, -, reported⟩ := exists_run_reported o analyDim_pos (by decide) delay memory
    (fun r mem => of_decide_eq_true (List.mem_filter.mp mem).2) early told ordered
  exact ⟨s, (run_flow o _ rs).trans reach, reported.lines⟩

/-- A packet of a hundred bytes waits for a sixteenth of a second, the next one is dropped, and
the sample is written when a third one comes. -/
def served : List Record :=
  [⟨.enque, 0, 100, 0, 1⟩, ⟨.deque, 1 / 16, 100, 0, 1⟩, ⟨.enque, 5 / 64, 200, 0, 2⟩,
    ⟨.drop, 5 / 64, 200, 0, 2⟩, ⟨.enque, 1 / 8, 50, 0, 3⟩]

theorem reports_served : ∃ s, run (step .default) zero served = some s ∧
    s.lines = [⟨double (1 / 10), 2400, 2, 800, 1, 0, 0, 1600, 1, some (1 / 16)⟩] := by
  have flow : flow .default served = served :=
    List.filter_eq_self.mpr fun r _ => decide_eq_true fun f none => by cases none
  have told : Along tell (Consistent fun _ : Fin analyDim => ⟨0, 0, false⟩) [] served := by
    simp only [served, along_cons, along_nil, tell, Option.some.injEq, forall_eq', implies_true,
      and_true]
    refine ⟨?_, ?_, ?_, ?_, ?_⟩ <;> constructor <;>
      simp [waiting, Record.serve, analyDim]
  have ordered : served.Pairwise fun p r => p.time ≤ r.time := by
    norm_num [served]
  have early : ∀ r ∈ served, double (r.time - Options.default.smp) ≤ stall Options.default.smp := by
    decide +kernel
  obtain ⟨s, reach, lines⟩ := reports .default 0 (fun _ => ⟨0, 0, false⟩) served
    (by rwa [flow]) (by rwa [flow]) (by rwa [flow])
  have first : ∀ r ∈ served.take 4, interval Options.default.smp r = 0 := by
    intro r mem
    rw [← Nat.le_zero, interval_le_iff (early r (List.mem_of_mem_take mem))]
    revert r
    decide +kernel
  have last : ∀ r ∈ served.drop 4, interval Options.default.smp r = 1 := by
    intro r mem
    have within := interval_le_iff (k := 1) (early r (List.mem_of_mem_drop mem))
    have before := interval_le_iff (k := 0) (early r (List.mem_of_mem_drop mem))
    have next : ∀ r ∈ served.drop 4,
        double (r.time - Options.default.smp) ≤ added Options.default.smp 0 1 ∧
          ¬ double (r.time - Options.default.smp) ≤ added Options.default.smp 0 0 := by
      decide +kernel
    have zero := before.not.mpr (next r mem).2
    exact (within.mpr (next r mem).1).antisymm (Nat.pos_of_ne_zero fun none => zero none.le)
  have split : ∀ P : Record → Bool, served.filter P =
      (served.take 4).filter P ++ (served.drop 4).filter P := fun P => by
    rw [← List.filter_append, List.take_append_drop]
  have inside : during Options.default.smp 0 served = served.take 4 := by
    rw [during, split, List.filter_eq_self.mpr fun r mem => decide_eq_true (first r mem),
      List.filter_eq_nil_iff.mpr fun r mem => by simp [last r mem], List.append_nil]
  have far : upTo Options.default.smp 0 served = served.take 4 := by
    rw [upTo, split, List.filter_eq_self.mpr fun r mem => decide_eq_true (first r mem).le,
      List.filter_eq_nil_iff.mpr fun r mem => by simp [last r mem], List.append_nil]
  have left : departures [] served = [(⟨.enque, 0, 100, 0, 1⟩, ⟨.deque, 1 / 16, 100, 0, 1⟩)] := rfl
  have waited : sojourn Options.default.smp 0 served 0 = 1 / 16 := by
    have zero : interval Options.default.smp ⟨.deque, 1 / 16, 100, 0, 1⟩ = 0 :=
      first _ (by simp [served])
    rw [sojourn, left, List.filter_singleton, decide_eq_true zero]
    decide +kernel
  have intervals : lastInterval Options.default.smp served = 1 := last _ (by simp [served])
  refine ⟨s, reach, ?_⟩
  rw [lines, flow, intervals, List.range_one, List.map_singleton, describe, inside, far, waited]
  simp only [List.cons.injEq, Sample.mk.injEq, and_true]
  decide +kernel

end Analy

end Mftdma.Utils
